import ScCore.Store.Relabel
import Mathlib.Order.WellFounded

/-!
# The recursion of `__erase_el`

Where the recursion of the incidence relation is well founded, `__erase_el`
returns and does what an erasure should do.
-/

namespace ScCore.Store

open Memory TmpSegment Relation

variable {h : Holds} {m m' : Memory} {a v : Addr} {e : ElemId} {s : Endpoint} {w : Waits}

/-- `__erase_el` of `v` returns in whatever is left of a memory. -/
def Erases (w : Waits) (R : Addr → Addr → Prop) (v : Addr) : Prop :=
  ∀ h m ss, (∀ x y, Incident m x y → R x y) → Inv h m → Unheld h m v →
    (∃ g, m.addrs v = some g ∧ g.dead = false ∧ Session.opened ss g.seg = true) →
    ∃ m', Erased h v m m' ∧ Converges (fun k => Session.eraseElCore w k ss m v) m'

structure Erasing (h : Holds) (m : Memory) (a : Addr) : Prop where
  detached : Detached m a
  unheld : Unheld h m a
  live : m.liveAddr a = true

theorem Erasing.shrink (er : Erasing h m a) (sh : Shrinks m m') (live : m'.liveAddr a = true) :
    Erasing h m' a :=
  ⟨sh.detached er.detached, sh.unheld er.unheld, live⟩

theorem Erased.live_of_incident (er : Erased h v m m') (d : Detached m a) (i : Incident m a v)
    (hlive : m.liveAddr a = true) : m'.liveAddr a = true := by
  cases hlive' : m'.liveAddr a with
  | true => rfl
  | false =>
    have hva := d.eq_of_reaches (er.cascade.killed a hlive hlive')
    obtain ⟨_, arc, s, -, harc, ht⟩ := i
    rw [d arc s (hva ▸ harc)] at ht
    cases ht

theorem Cascade.live (c : ∀ K, Cascade K m m') {b : Addr} (hb : m.liveAddr b = true) :
    m'.liveAddr b = true := by
  cases hb' : m'.liveAddr b with
  | true => rfl
  | false => exact ((c fun _ => False).killed b hb hb').elim

theorem Erased.cascade_of_incident (er : Erased h v m m') (i : Incident m a v) :
    Cascade (TransGen (Incident m) a) m m' :=
  er.cascade.mono fun _ hr => TransGen.head' i hr

variable {m'' : Memory} {g : GlobalAddr} {ss : Session}

theorem Cascade.later {K : Addr → Prop} (c : Cascade K m m')
    (c' : Cascade (TransGen (Incident m') a) m' m'') : Cascade (TransGen (Incident m) a) m' m'' :=
  c'.mono fun _ ht => TransGen.mono (fun _ _ => c.shrinks.incident) _ _ ht

theorem Standing.incident {n : NodeId} (st : Standing h m e s a n v) :
    ∃ x, m.addrOf x = some v ∧ m.graph.target x s = some e := by
  obtain ⟨post, hlist⟩ := st.head
  obtain ⟨x, harc, haddr⟩ := st.arc
  exact ⟨x, haddr, (st.inv.coherent.listed_target (hlist ▸ List.mem_cons_self) harc).1⟩

theorem Standing.erase {R : Addr → Addr → Prop} {n : NodeId} (ih : ∀ v, R a v → Erases w R v)
    (st : Standing h m e s a n v) (he : m.addrOf e = some a)
    (sub : ∀ x y, Incident m x y → R x y) :
    Incident m a v ∧ ∃ m', Erased ((h.holdAddr v).holdNode n) v m m' ∧
      Converges (fun k => Session.eraseElCore w k systemSession m v) m' := by
  obtain ⟨x, hx, ht⟩ := st.incident
  have i : Incident m a v := ⟨e, x, s, he, hx, ht⟩
  have hlive : m.liveAddr v = true := by
    cases hlive : m.liveAddr v with
    | true => rfl
    | false => simp [(st.inv.dead_free s hx hlive).2] at ht
  obtain ⟨g, hg, hd⟩ := liveAddr_eq_true.mp hlive
  refine ⟨i, ih v (sub _ _ i) _ m systemSession sub st.inv ?_ ⟨g, hg, hd, rfl⟩⟩
  intro e' s' n' he' hn'
  by_contra hne
  rw [st.inv.held_detached (Nat.pos_of_ne_zero hne) hn' he' hx] at ht
  cases ht

theorem eraseLoop_spec {R : Addr → Addr → Prop} (ih : ∀ v, R a v → Erases w R v)
    {it : TmpIterator} (sub : ∀ x y, Incident m x y → R x y) (stand : At h m a it)
    (he : m.addrOf it.owner = some a) (er : Erasing h m a) :
    ∃ m', Inv h m' ∧ m'.graph.listed it.owner it.side = [] ∧ m'.liveAddr a = true ∧
      Cascade (TransGen (Incident m) a) m m' ∧
      ∀ j, Converges
        (fun k => Session.eraseLoop (Session.eraseElCore w (k + j) systemSession) k m it) m' := by
  obtain ⟨e, s, curr⟩ := it
  induction hlen : (m.graph.listed e s).length using Nat.strong_induction_on generalizing m curr
    with
  | _ len loop =>
    cases curr with
    | none =>
      obtain ⟨inv, hnil⟩ := stand
      refine ⟨m, inv, hnil, er.live, Cascade.refl inv.toGraphInv, fun j => ?_⟩
      exact Converges.of_succ (Converges.const m)
    | some c =>
      obtain ⟨n, v⟩ := c
      obtain ⟨i, m₁, er₁, hm₁⟩ := Standing.erase ih stand he sub
      have live₁ := er₁.live_of_incident er.detached i er.live
      obtain ⟨m₂, it₂, hm₂, howner, hside, at₂, cascade₂, hlt⟩ :=
        Standing.next stand er₁ he er.detached er.unheld live₁
      obtain ⟨e₂, s₂, curr₂⟩ := it₂
      obtain rfl : e₂ = e := howner
      obtain rfl : s₂ = s := hside
      have live₂ := Cascade.live cascade₂ live₁
      have c₂ : Cascade (TransGen (Incident m) a) m m₂ :=
        (er₁.cascade_of_incident i).trans (cascade₂ _)
      have he₂ := (c₂.keeps a live₂).addrOf he
      obtain ⟨m₃, inv₃, hnil, live₃, c₃, hm₃⟩ := loop _ (hlen ▸ hlt)
        (fun x y hxy => sub x y (c₂.shrinks.incident hxy)) (er.shrink c₂.shrinks live₂) _ at₂ he₂
          rfl
      refine ⟨m₃, inv₃, hnil, live₃, c₂.trans (c₂.later c₃), fun j => Converges.of_succ ?_⟩
      have hbody : ∀ k, Session.eraseLoop (Session.eraseElCore w (k + 1 + j) systemSession) (k + 1)
        m
          ⟨e₂, s₂, some (n, v)⟩ = (Session.eraseElCore w (k + (1 + j)) systemSession m v).bind
            fun m => (TmpIterator.next m ⟨e₂, s₂, some (n, v)⟩).bind fun p =>
              Session.eraseLoop (Session.eraseElCore w (k + (1 + j)) systemSession) k p.1 p.2 := by
        intro k
        rw [Nat.add_assoc]
        rfl
      simp only [hbody]
      refine (hm₁.shift (1 + j)).bind ?_
      simp only [hm₂, Option.bind_some]
      exact hm₃ (1 + j)

structure Cleared (h : Holds) (a : Addr) (m m' : Memory) : Prop where
  inv : Inv h m'
  erasing : Erasing h m' a
  cascade : Cascade (TransGen (Incident m) a) m m'

theorem Cleared.trans (c : Cleared h a m m') (c' : Cleared h a m' m'') : Cleared h a m m'' :=
  ⟨c'.inv, c'.erasing, c.cascade.trans (c.cascade.later c'.cascade)⟩

theorem Cleared.listed_nil (c : Cleared h a m m') (hnil : m.graph.listed e s = []) :
    m'.graph.listed e s = [] := by
  rw [c.cascade.shrinks.listed, hnil]
  rfl

section Loops

variable {R : Addr → Addr → Prop} (ih : ∀ v, R a v → Erases w R v)
include ih

theorem eraseList_spec (sub : ∀ x y, Incident m x y → R x y) (inv : Inv h m)
    (he : m.addrOf e = some a) (er : Erasing h m a) (s : Endpoint) :
    ∃ m', Cleared h a m m' ∧ m'.graph.listed e s = [] ∧
      Converges (fun k => (TmpIterator.create m e s).bind fun p =>
        Session.eraseLoop (Session.eraseElCore w k systemSession) k p.1 p.2) m' := by
  obtain ⟨m₁, ⟨e₁, s₁, curr⟩, hm₁, howner, hside, at₁, cascade₁⟩ :=
    inv.create (s := s) he er.live er.detached er.unheld
  obtain rfl : e₁ = e := howner
  obtain rfl : s₁ = s := hside
  have live₁ := Cascade.live cascade₁ er.live
  have c₁ := cascade₁ (TransGen (Incident m) a)
  obtain ⟨m₂, inv₂, hnil, live₂, c₂, hm₂⟩ := eraseLoop_spec ih
    (fun x y hxy => sub x y (c₁.shrinks.incident hxy)) at₁ ((c₁.keeps a live₁).addrOf he)
    (er.shrink c₁.shrinks live₁)
  have c : Cascade (TransGen (Incident m) a) m m₂ := c₁.trans (c₁.later c₂)
  refine ⟨m₂, ⟨inv₂, er.shrink c.shrinks live₂, c⟩, hnil, ?_⟩
  simp only [hm₁, Option.bind_some]
  exact hm₂ 0

theorem eraseArcsOf_spec (sub : ∀ x y, Incident m x y → R x y) (inv : Inv h m)
    (he : m.addrOf e = some a) (er : Erasing h m a) :
    ∃ m', Cleared h a m m' ∧ (∀ s, m'.graph.listed e s = []) ∧
      Converges (fun k =>
        Session.eraseArcsOf (Session.eraseElCore w k systemSession) k m e) m' := by
  obtain ⟨m₁, c₁, hnil₁, hm₁⟩ := eraseList_spec ih sub inv he er .beg
  have he₁ := (c₁.cascade.keeps a c₁.erasing.live).addrOf he
  obtain ⟨m₂, c₂, hnil₂, hm₂⟩ := eraseList_spec ih
    (fun x y hxy => sub x y (c₁.cascade.shrinks.incident hxy)) c₁.inv he₁ c₁.erasing .fin
  refine ⟨m₂, c₁.trans c₂, fun s => ?_, ?_⟩
  · cases s with
    | beg => exact c₂.listed_nil hnil₁
    | fin => exact hnil₂
  · have hbody : ∀ k, Session.eraseArcsOf (Session.eraseElCore w k systemSession) k m e =
        ((TmpIterator.create m e .beg).bind fun p =>
          Session.eraseLoop (Session.eraseElCore w k systemSession) k p.1 p.2).bind fun m =>
        (TmpIterator.create m e .fin).bind fun p =>
          Session.eraseLoop (Session.eraseElCore w k systemSession) k p.1 p.2 := by
      intro k
      simp only [Session.eraseArcsOf, Option.bind_eq_bind, Option.bind_assoc]
    simp only [hbody]
    exact hm₁.bind hm₂

theorem eraseStoresArcs_spec (l : List LinkAddr) (sub : ∀ x y, Incident m x y → R x y)
    (inv : Inv h m) (hl : ∀ st ∈ l, m.addrOf st.impl = some a) (er : Erasing h m a) :
    ∃ m', Cleared h a m m' ∧ (∀ st ∈ l, ∀ s, m'.graph.listed st.impl s = []) ∧
      Converges (fun k =>
        Session.eraseStoresArcs (Session.eraseElCore w k systemSession) k m l) m' := by
  induction l generalizing m with
  | nil => exact ⟨m, ⟨inv, er, Cascade.refl inv.toGraphInv⟩, by simp, Converges.const m⟩
  | cons st l loop =>
    obtain ⟨m₁, c₁, hnil₁, hm₁⟩ := eraseArcsOf_spec ih sub inv (hl st List.mem_cons_self) er
    obtain ⟨m₂, c₂, hnil₂, hm₂⟩ := loop
      (fun x y hxy => sub x y (c₁.cascade.shrinks.incident hxy)) c₁.inv
      (fun st' hst' => (c₁.cascade.keeps a c₁.erasing.live).addrOf
        (hl st' (List.mem_cons_of_mem _ hst'))) c₁.erasing
    refine ⟨m₂, c₁.trans c₂, ?_, hm₁.bind hm₂⟩
    intro st' hst' s
    rcases List.mem_cons.mp hst' with rfl | hst'
    · exact c₂.listed_nil (hnil₁ s)
    · exact hnil₂ st' hst' s

end Loops

theorem Forgets.addrs (f : Forgets a m m') (inv : Inv h m) (inv' : Inv h m')
    (hg : m.addrs a = some g) : ∃ g', m'.addrs a = some g' ∧ g'.impl = g.impl := by
  have haddr : m'.addrOf g.impl = some a :=
    (addrOf_congr (f.label g.impl)).trans (inv.stores_addr hg List.mem_cons_self)
  obtain ⟨g', hg', -⟩ := inv'.addr_stores haddr
  obtain ⟨g₀, hg₀, -, hi, -⟩ := f.shrinks.addr hg'
  obtain rfl : g = g₀ := by simpa [hg] using hg₀
  exact ⟨g', hg', hi⟩

theorem Inv.forgetEnds (inv : Inv h m) (hg : m.addrs a = some g) (hlive : g.dead = false)
    (hopen : ss.opened g.seg = true) (w : Waits) :
    ∃ m', Session.forgetEnds ss w m a = some m' ∧ Inv h m' ∧ Tallied m m' ∧
      Forgets a m m' ∧ Detached m' a := by
  obtain ⟨el, hel, htype⟩ := inv.getType_eq hg hlive hopen
  by_cases hconn : el.type.isConnector = true
  · obtain ⟨m₁, hm₁, inv₁, tallied₁, forgets₁, target₁⟩ := inv.setEndCore_none hg
    obtain ⟨g₁, hg₁, hi₁⟩ := forgets₁.addrs inv inv₁ hg
    obtain ⟨m₂, hm₂, inv₂, tallied₂, forgets₂, target₂⟩ := inv₁.setBegCore_none hg₁ ss w
    obtain ⟨g₂, hg₂, hi₂⟩ := forgets₂.addrs inv₁ inv₂ hg₁
    refine ⟨m₂, ?_, inv₂, tallied₁.trans tallied₂, forgets₁.trans forgets₂, ?_⟩
    · simp [Session.forgetEnds, htype, hconn, hm₁, hm₂]
    · intro e s he
      refine inv₂.target_none hg₂ (fun t => ?_) he s
      rw [target₂, target₁, hi₂, hi₁]
      cases t <;> simp
  · refine ⟨m, ?_, inv, Tallied.refl m, Forgets.refl inv.toGraphInv a, fun e s he => ?_⟩
    · simp [Session.forgetEnds, htype, hconn]
    · refine inv.target_none hg (fun t => ?_) he s
      cases ht : m.graph.target g.impl t with
      | none => rfl
      | some x => exact absurd (inv.typed ht (label_stored hel)) hconn

theorem Inv.eraseIdtf (inv : Inv h m) (hg : m.addrs a = some g) (hlive : g.dead = false)
    (hopen : ss.opened g.seg = true) :
    ∃ m', ss.eraseIdtf m a = some (m', rvOk) ∧ Renames (· = g.impl) m m' := by
  obtain ⟨el, hel, -⟩ := inv.own_stored hg
  obtain ⟨m', hm', r⟩ := renames_eraseIdtf g.seg hel
  exact ⟨m', by simp [Session.eraseIdtf, Session.access, hg, hlive, hopen, rvOk, hm'], r⟩

theorem eraseElCore_step {R : Addr → Addr → Prop} (ih : ∀ v, R a v → Erases w R v) :
    Erases w R a := by
  rintro h m ss sub inv unheld ⟨g, hg, hd, hopen⟩
  have hlive : m.liveAddr a = true := liveAddr_eq_true.mpr ⟨g, hg, hd⟩
  obtain ⟨m₁, hm₁, inv₁, tallied₁, f₁, detached₁⟩ := inv.forgetEnds hg hd hopen w
  have er₁ : Erasing h m₁ a :=
    ⟨detached₁, f₁.shrinks.unheld unheld, (f₁.live a).trans hlive⟩
  obtain ⟨g₁, hg₁, hd₁⟩ := liveAddr_eq_true.mp er₁.live
  obtain ⟨m₂, c₂, hnil₂, hm₂⟩ := eraseStoresArcs_spec ih g₁.stores
    (fun x y hxy => sub x y (f₁.shrinks.incident hxy)) inv₁
    (fun st hst => inv₁.stores_addr hg₁ hst) er₁
  obtain ⟨g₂, hg₂, hd₂⟩ := liveAddr_eq_true.mp c₂.erasing.live
  have hseg₂ : g₂.seg = g.seg := by
    obtain ⟨g', hg', hs', -⟩ := c₂.cascade.shrinks.addr hg₂
    obtain ⟨g'', hg'', hs'', -⟩ := f₁.shrinks.addr hg'
    obtain rfl : g = g'' := by simpa [hg] using hg''
    exact hs'.trans hs''
  obtain ⟨m₃, hm₃, r₃⟩ := c₂.inv.eraseIdtf hg₂ hd₂ (hseg₂ ▸ hopen)
  have inv₃ := r₃.inv c₂.inv
  have bare : ∀ e, m₃.addrOf e = some a → ∀ s,
      m₃.graph.listed e s = [] ∧ m₃.graph.target e s = none := by
    intro e he s
    rw [r₃.relabels.addrOf] at he
    rw [r₃.relabels.graph]
    refine ⟨?_, c₂.erasing.detached e s he⟩
    obtain ⟨g', hg', st, hst, rfl⟩ := inv₁.addr_stores (c₂.cascade.shrinks.addrOf he)
    obtain rfl : g₁ = g' := by simpa [hg₁] using hg'
    exact hnil₂ st hst s
  obtain ⟨m₄, hm₄, inv₄, tallied₄, sh₄, keeps₄, live₄⟩ :=
    inv₃.dieAddr ((r₃.relabels.liveAddr a).trans c₂.erasing.live) bare
  have sh₃ : Shrinks m₂ m₃ := r₃.relabels.shrinks c₂.inv.toGraphInv r₃.types
  have cascade : Cascade (ReflTransGen (Incident m) a) m m₄ := {
    tallied := ((tallied₁.trans c₂.cascade.tallied).trans r₃.relabels.tallied).trans tallied₄
    shrinks := ((f₁.shrinks.trans c₂.cascade.shrinks).trans sh₃).trans sh₄
    keeps := fun b hb => by
      have hba : b ≠ a := by
        rintro rfl
        simp [live₄] at hb
      have hb₃ : m₃.liveAddr b = true := by simpa [live₄, hba] using hb
      have hother : ∀ e, m₂.addrOf e = some b → e ≠ g₂.impl := by
        rintro e he rfl
        exact hba (Option.some.inj (he.symm.trans (c₂.inv.stores_addr hg₂ List.mem_cons_self)))
      exact (((f₁.keeps b hba).trans (c₂.cascade.keeps b (r₃.relabels.liveAddr b ▸ hb₃))).trans
        (r₃.relabels.keeps hother)).trans (keeps₄ b hba)
    killed := fun b hb hb₄ => by
      by_cases hba : b = a
      · exact hba ▸ ReflTransGen.refl
      · have hb₂ : m₂.liveAddr b = false := by
          rw [← r₃.relabels.liveAddr]
          simpa [live₄, hba] using hb₄
        have hr := c₂.cascade.killed b ((f₁.live b).trans hb) hb₂
        exact (TransGen.mono (fun _ _ => f₁.shrinks.incident) _ _ hr).to_reflTransGen }
  refine ⟨m₄, ⟨inv₄, cascade, by simp [live₄]⟩, Converges.of_succ ?_⟩
  have hbody : ∀ k, Session.eraseElCore w (k + 1) ss m a =
      (Session.eraseStoresArcs (Session.eraseElCore w k systemSession) k m₁ g₁.stores).bind fun m =>
        (ss.eraseIdtf m a).bind fun p => GlobalAddr.die p.1 a := by
    intro k
    simp [Session.eraseElCore, hm₁, hg₁]
  simp only [hbody]
  refine hm₂.bind ?_
  simp only [hm₃, Option.bind_some, hm₄]
  exact Converges.const m₄

theorem erases_of_acc {R : Addr → Addr → Prop} (acc : Acc (fun x y => R y x) a) : Erases w R a := by
  induction acc with
  | intro a _ ih => exact eraseElCore_step fun v hv => ih v hv

end ScCore.Store
