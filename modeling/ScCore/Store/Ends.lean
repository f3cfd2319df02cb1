import ScCore.Store.Shrink

/-!
# The ends of an arc and the counters of addresses

`__set_beg` and `__set_end` work on a segment and then adjust the counter of
the address they detach from or attach to.
-/

namespace ScCore.Store

open Memory

section Counters

theorem sum_map_shift {l : List ElemId} (nodup : l.Nodup) {q q' : ElemId → Int} {e : ElemId}
    {d : Int} (he : q' e = q e + d) (hq : ∀ x, x ≠ e → q' x = q x) :
    (l.map q').sum = (l.map q).sum + if e ∈ l then d else 0 := by
  induction l with
  | nil => simp
  | cons x l ih =>
    obtain ⟨notin, nodup⟩ := List.nodup_cons.mp nodup
    have ih := ih nodup
    by_cases hx : x = e
    · subst hx
      simp only [notin, if_false] at ih
      simp only [List.map_cons, List.sum_cons, ih, he, List.mem_cons_self, if_true]
      omega
    · have hmem : e ∈ x :: l ↔ e ∈ l := by simp [Ne.symm hx]
      simp only [List.map_cons, List.sum_cons, ih, hq x hx, hmem]
      omega

theorem map_stores (g : GlobalAddr) (q : ElemId → Int) :
    g.stores.map (fun st => q st.impl) = (g.stores.map (·.impl)).map q := by
  rw [List.map_map]
  rfl

/-- `up_out_qnt` and the like. -/
def addQnt (m : Memory) (b : Addr) (s : Endpoint) (d : Int) : Memory :=
  m.mapAddr b fun g => g.setQnt s (g.qnt s + d)

variable {h : Holds} {m m' : Memory} {b : Addr} {s : Endpoint} {d : Int} {e : ElemId}

theorem downQnt_eq {g : GlobalAddr} (hb : m.addrs b = some g) :
    Session.downQnt s m b = some (addQnt m b s (-1)) :=
  modifyAddr_eq hb

theorem upQnt_eq {g : GlobalAddr} (hb : m.addrs b = some g) :
    Session.upQnt s m b = some (addQnt m b s 1) :=
  modifyAddr_eq hb

theorem Tallied.shift (ai : AddrInv h m) (he : m.addrOf e = some b)
    (haddrs : m'.addrs = m.addrs)
    (hq : ∀ x t, m'.qnt x t = if x = e ∧ t = s then m.qnt x t + d else m.qnt x t) :
    Tallied m (addQnt m' b s d) := by
  intro R cmp tally a g' t ha
  have hval : ∀ g, m.addrs a = some g →
      (g.stores.map fun st => m'.qnt st.impl t).sum =
        (g.stores.map fun st => m.qnt st.impl t).sum + if a = b ∧ t = s then d else 0 := by
    intro g hg
    rw [map_stores g fun x => m'.qnt x t, map_stores g fun x => m.qnt x t]
    by_cases ht : t = s
    · have hsum : ((g.stores.map (·.impl)).map fun x => m'.qnt x t).sum =
          ((g.stores.map (·.impl)).map fun x => m.qnt x t).sum +
            if e ∈ g.stores.map (·.impl) then d else 0 :=
        sum_map_shift (ai.nodup hg) (by simp [hq, ht]) fun x hx => by simp [hq, hx]
      have hmem : e ∈ g.stores.map (·.impl) ↔ a = b := by
        rw [List.mem_map]
        constructor
        · rintro ⟨st, hst, rfl⟩
          exact Option.some.inj ((ai.stores_addr hg hst).symm.trans he)
        · rintro rfl
          obtain ⟨g', hg', st, hst, hi⟩ := ai.addr_stores he
          rw [hg] at hg'
          exact ⟨st, Option.some.inj hg' ▸ hst, hi⟩
      rw [hsum]
      simp only [hmem, ht, and_true]
    · simp [hq, ht]
  have hgraph : ∀ x, (addQnt m' b s d).qnt x t = m'.qnt x t := fun _ => rfl
  simp only [addQnt, mapAddr_addrs, haddrs] at ha
  by_cases hab : a = b
  · rw [if_pos hab] at ha
    obtain ⟨g, hg, rfl⟩ := Option.map_eq_some_iff.mp ha
    show R (if t = s then g.qnt s + d else g.qnt t) _
    rw [show (g.setQnt s (g.qnt s + d)).stores = g.stores from rfl]
    simp only [hgraph, hval g hg, hab, true_and]
    split
    · next ht => exact ht ▸ cmp.add d (tally a g t hg)
    · exact (Int.add_zero _).symm ▸ tally a g t hg
  · rw [if_neg hab] at ha
    simpa [hgraph, hval g' ha, hab] using tally a g' t ha

theorem addQnt_addr {a : Addr} {g' : GlobalAddr} (ha : (addQnt m b s d).addrs a = some g') :
    ∃ g, m.addrs a = some g ∧ g'.seg = g.seg ∧ g'.impl = g.impl ∧ g'.links = g.links ∧
      g'.refcnt = g.refcnt ∧ g'.dead = g.dead ∧ g'.zombie = g.zombie := by
  simp only [addQnt, mapAddr_addrs] at ha
  split at ha
  · obtain ⟨g, hg, rfl⟩ := Option.map_eq_some_iff.mp ha
    exact ⟨g, hg, rfl, rfl, rfl, rfl, rfl, rfl⟩
  · exact ⟨g', ha, rfl, rfl, rfl, rfl, rfl, rfl⟩

theorem addQnt_stored {a : Addr} {g : GlobalAddr} (ha : m.addrs a = some g) :
    ∃ g', (addQnt m b s d).addrs a = some g' ∧ g'.stores = g.stores := by
  simp only [addQnt, mapAddr_addrs, ha]
  split
  · exact ⟨_, rfl, rfl⟩
  · exact ⟨_, rfl, rfl⟩

theorem stores_eq {g g' : GlobalAddr} (hs : g'.seg = g.seg) (hi : g'.impl = g.impl)
    (hl : g'.links = g.links) : g'.stores = g.stores := by
  rw [GlobalAddr.stores, GlobalAddr.stores, hs, hi, hl]

theorem liveAddr_addQnt (a : Addr) : (addQnt m b s d).liveAddr a = m.liveAddr a := by
  by_cases hab : a = b
  · subst hab
    cases hg : m.addrs a <;> simp [Memory.liveAddr, addQnt, hg, GlobalAddr.setQnt]
  · simp [Memory.liveAddr, addQnt, hab]

theorem GraphInv.addQnt (gi : GraphInv h m) : GraphInv h (addQnt m b s d) :=
  gi.congr rfl (fun _ _ => rfl) rfl rfl

theorem AddrInv.addQnt (ai : AddrInv h m) : AddrInv h (addQnt m b s d) where
  stores_addr := by
    intro a g' st ha hst
    obtain ⟨g, hg, hs, hi, hl, -⟩ := addQnt_addr ha
    exact ai.stores_addr hg (stores_eq hs hi hl ▸ hst)
  addr_stores := by
    intro x a hx
    obtain ⟨g, hg, st, hst, hi⟩ := ai.addr_stores (e := x) hx
    obtain ⟨g', hg', hs⟩ := addQnt_stored (b := b) (s := s) (d := d) hg
    exact ⟨g', hg', st, hs ▸ hst, hi⟩
  addressed := ai.addressed
  nodup := by
    intro a g' ha
    obtain ⟨g, hg, hs, hi, hl, -⟩ := addQnt_addr ha
    exact stores_eq hs hi hl ▸ ai.nodup hg
  not_zombie := by
    intro a g' ha
    obtain ⟨g, hg, -, -, -, -, -, hz⟩ := addQnt_addr ha
    exact hz.trans (ai.not_zombie hg)
  addr_refs := by
    intro a g' ha
    obtain ⟨g, hg, -, -, -, hr, hd, -⟩ := addQnt_addr ha
    rw [hr, hd]
    exact ai.addr_refs hg
  addr_held := by
    intro a g' ha hd
    obtain ⟨g, hg, -, -, -, -, hd', -⟩ := addQnt_addr ha
    exact ai.addr_held hg (hd' ▸ hd)
  held_addr := by
    intro a ha
    obtain ⟨g, hg⟩ := ai.held_addr ha
    obtain ⟨g', hg', -⟩ := addQnt_stored (b := b) (s := s) (d := d) hg
    exact ⟨g', hg'⟩
  elem_lt := ai.elem_lt
  addr_lt := by
    intro a g' ha
    obtain ⟨g, hg, -⟩ := addQnt_addr ha
    exact ai.addr_lt hg

theorem shrinks_addQnt (gi : GraphInv h m) : Shrinks m (addQnt m b s d) where
  listed e s := (gi.filter_stored e s).symm
  node hn := ⟨_, hn, rfl, id⟩
  target := id
  label hl := ⟨_, hl, rfl, rfl⟩
  addr ha := by
    obtain ⟨g, hg, hs, hi, hl, -, hd, -⟩ := addQnt_addr ha
    exact ⟨g, hg, hs, hi, hl, fun h => hd ▸ h⟩
  uri _ := rfl

end Counters

/-- Ends of the arc `a` have been cleared, and nothing else has happened. -/
structure Forgets (a : Addr) (m m' : Memory) : Prop where
  shrinks : Shrinks m m'
  keeps : ∀ b, b ≠ a → Keeps m m' b
  live : ∀ b, m'.liveAddr b = m.liveAddr b
  label : ∀ e, m'.label e = m.label e

namespace Forgets

variable {a : Addr} {m m' m'' : Memory}

theorem refl {h : Holds} (gi : GraphInv h m) (a : Addr) : Forgets a m m :=
  ⟨Shrinks.refl gi, fun b _ => Keeps.refl m b, fun _ => rfl, fun _ => rfl⟩

theorem trans (f : Forgets a m m') (f' : Forgets a m' m'') : Forgets a m m'' where
  shrinks := f.shrinks.trans f'.shrinks
  keeps b hb := (f.keeps b hb).trans (f'.keeps b hb)
  live b := (f'.live b).trans (f.live b)
  label e := (f'.label e).trans (f.label e)

end Forgets

namespace Inv

variable {h : Holds} {m : Memory} {a : Addr} {g : GlobalAddr}

theorem target_addr (inv : Inv h m) {x e : ElemId} {s : Endpoint}
    (ht : m.graph.target x s = some e) :
    ∃ o b, m.elems e = some o ∧ o.addr = some b ∧ m.liveAddr b = true := by
  obtain ⟨n, l, o, -, hn, -, -, -, ho⟩ := inv.attached ht
  obtain ⟨b, hb⟩ := inv.addressed ho
  refine ⟨o, b, ho, hb, ?_⟩
  cases hlive : m.liveAddr b with
  | true => rfl
  | false =>
    obtain ⟨hlist, -⟩ := inv.dead_free s ((addrOf_stored ho).trans hb) hlive
    simp [hlist] at hn

theorem clearEnd (inv : Inv h m) (hg : m.addrs a = some g) (s : Endpoint) :
    ∃ el old m', m.elems g.impl = some el ∧ Session.endAddr m (el.ends s) = some old ∧
      Session.clearEnd s m g.impl old = some m' ∧ Inv h m' ∧ Tallied m m' ∧
      Forgets a m m' ∧
      ∀ x t, m'.graph.target x t = if x = g.impl ∧ t = s then none else m.graph.target x t := by
  obtain ⟨el, hel, hela⟩ := inv.own_stored hg
  obtain ⟨m₁, hset, gi, c⟩ := inv.toGraphInv.clear (s := s) hel
  have ai := inv.toAddrInv.relinks c.relinks
  have haddr : m.addrOf g.impl = some a := (addrOf_stored hel).trans hela
  have forgets : Forgets a m m₁ := {
    shrinks := c.shrinks
    keeps := fun b hb => c.keeps fun h' => hb (Option.some.inj (h'.symm.trans haddr))
    live := c.relinks.liveAddr
    label := c.relinks.label }
  have inv₁ : Inv h m₁ := inv.shrink gi ai c.shrinks fun _ hd => (forgets.live _).symm.trans hd
  cases hend : el.ends s with
  | none =>
    have htarget : m.graph.target g.impl s = none := (target_stored hel).trans hend
    refine ⟨el, none, m₁, hel, by rw [hend]; rfl, ?_, inv₁, ?_, forgets, c.target⟩
    · simp [Session.clearEnd, hset]
    · apply Tallied.of_eq c.relinks.addrs
      simp [c.qnt, htarget]
  | some e =>
    have htarget : m.graph.target g.impl s = some e := (target_stored hel).trans hend
    obtain ⟨o, b, ho, hob, hlive⟩ := inv.target_addr htarget
    have hb : m.addrOf e = some b := (addrOf_stored ho).trans hob
    obtain ⟨gb, hgb, -⟩ := inv.addr_stores hb
    have hgb₁ : m₁.addrs b = some gb := c.relinks.addrs ▸ hgb
    have forgets' : Forgets a m₁ (addQnt m₁ b s (-1)) :=
      ⟨shrinks_addQnt gi, fun _ _ => Keeps.refl _ _, liveAddr_addQnt, fun _ => rfl⟩
    refine ⟨el, some b, addQnt m₁ b s (-1), hel, ?_, ?_, ?_, ?_, forgets.trans forgets', c.target⟩
    · rw [hend]
      simp [Session.endAddr, ho, hob]
    · simp [Session.clearEnd, hset, downQnt_eq hgb₁]
    · exact inv₁.shrink gi.addQnt ai.addQnt forgets'.shrinks
        fun _ hd => (forgets'.live _).symm.trans hd
    · refine Tallied.shift inv.toAddrInv hb c.relinks.addrs fun x t => ?_
      rw [c.qnt, htarget]
      simp only [Option.some.injEq, eq_comm (a := e), Int.sub_eq_add_neg]

theorem endAddr_ne_none (inv : Inv h m) {x : ElemId} {el : Element} (hx : m.elems x = some el)
    {s : Endpoint} {old : Option Addr} (hold : Session.endAddr m (el.ends s) = some old)
    (hend : (el.ends s).isSome = true) : old ≠ none := by
  obtain ⟨e, he⟩ := Option.isSome_iff_exists.mp hend
  obtain ⟨o, b, ho, hob, -⟩ := inv.target_addr ((target_stored hx).trans he)
  rintro rfl
  simp [he, Session.endAddr, ho, hob] at hold

/-- What erasing the end `s` of the arc `a` does, through `__set_beg` or `__set_end`. -/
structure Unends (h : Holds) (s : Endpoint) (a : Addr) (g : GlobalAddr) (m m' : Memory) : Prop where
  inv : Inv h m'
  tallied : Tallied m m'
  forgets : Forgets a m m'
  target : ∀ x t, m'.graph.target x t =
    if x = g.impl ∧ t = s then none else m.graph.target x t

section

variable (inv : Inv h m) (hg : m.addrs a = some g)
include inv hg

theorem setEndCore_none :
    ∃ m', Session.setEndCore m a none = some (m', rvOk) ∧ Unends h .fin a g m m' := by
  obtain ⟨el, old, m', hel, hold, hclear, inv', tallied, forgets, target⟩ := inv.clearEnd hg .fin
  have hne : ¬((el.ends .fin).isSome = true ∧ old = none) :=
    fun ⟨hend, hnone⟩ => inv.endAddr_ne_none hel hold hend hnone
  refine ⟨m', ?_, inv', tallied, forgets, target⟩
  simp [Session.setEndCore, hg, hel, hold, hne, hclear]

theorem setBegCore_none (ss : Session) (w : Waits) :
    ∃ m', ss.setBegCore w m a none = some (m', rvOk) ∧ Unends h .beg a g m m' := by
  obtain ⟨el, old, m', hel, hold, hclear, inv', tallied, forgets, target⟩ := inv.clearEnd hg .beg
  have hne : ¬((el.ends .beg).isSome = true ∧ old = none) :=
    fun ⟨hend, hnone⟩ => inv.endAddr_ne_none hel hold hend hnone
  refine ⟨m', ?_, inv', tallied, forgets, target⟩
  simp [Session.setBegCore, hg, hel, hold, hne, hclear]

theorem getType_eq (hlive : g.dead = false) {ss : Session} (hopen : ss.opened g.seg = true) :
    ∃ el, m.elems g.impl = some el ∧ ss.getType m a = some el.type := by
  obtain ⟨el, hel, -⟩ := inv.own_stored hg
  exact ⟨el, hel, by simp [Session.getType, Session.access, hg, hlive, hopen, rvOk, hel]⟩

theorem target_none (hown : ∀ s, m.graph.target g.impl s = none) {e : ElemId}
    (he : m.addrOf e = some a) (s : Endpoint) : m.graph.target e s = none := by
  obtain ⟨g', hg', st, hst, hi⟩ := inv.addr_stores he
  obtain rfl : g = g' := by simpa [hg] using hg'
  rcases List.mem_cons.mp hst with rfl | hlink
  · exact hi ▸ hown s
  · exact hi ▸ inv.own hg hlink

end

end Inv

end ScCore.Store
