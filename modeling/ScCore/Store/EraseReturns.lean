import ScCore.Store.EraseSpec

/-!
# When an erasure returns

`erase_el_pre` walks over the incidence relation without marking anything, so
it returns exactly where the relation is well founded. `erase_el` is specified
from there, for any amount of fuel with which it returns.
-/

namespace ScCore.Store

open Memory TmpSegment Relation Session

section Fuel

variable {w : Waits}

variable {erase erase' : Memory → Addr → Option Memory}

section

variable (he : ∀ {m v r}, erase m v = some r → erase' m v = some r)
include he

theorem eraseLoop_mono :
    ∀ (k : Nat) {m : Memory} {it : TmpIterator} {r : Memory}, eraseLoop erase k m it = some r →
      eraseLoop erase' (k + 1) m it = some r := by
  intro k
  induction k with
  | zero => intro m it r hr; cases hr
  | succ k ih =>
    rintro m ⟨e, s, curr⟩ r hr
    cases curr with
    | none => exact hr
    | some c =>
      simp only [eraseLoop, Option.bind_eq_bind, Option.bind_eq_some_iff] at hr ⊢
      obtain ⟨m₁, hm₁, p, hp, hr⟩ := hr
      exact ⟨m₁, he hm₁, p, hp, ih hr⟩

theorem eraseArcsOf_mono {k : Nat} {m : Memory} {e : ElemId} {r : Memory}
    (hr : eraseArcsOf erase k m e = some r) : eraseArcsOf erase' (k + 1) m e = some r := by
  simp only [eraseArcsOf, Option.bind_eq_bind, Option.bind_eq_some_iff] at hr ⊢
  obtain ⟨p, hp, m₁, hm₁, q, hq, hr⟩ := hr
  exact ⟨p, hp, m₁, eraseLoop_mono he k hm₁, q, hq, eraseLoop_mono he k hr⟩

theorem eraseStoresArcs_mono {k : Nat} (l : List LinkAddr) :
    ∀ {m r : Memory}, eraseStoresArcs erase k m l = some r →
      eraseStoresArcs erase' (k + 1) m l = some r := by
  induction l with
  | nil => intro m r hr; exact hr
  | cons st l ih =>
    intro m r hr
    simp only [eraseStoresArcs, Option.bind_eq_bind, Option.bind_eq_some_iff] at hr ⊢
    obtain ⟨m₁, hm₁, hr⟩ := hr
    exact ⟨m₁, eraseArcsOf_mono he hm₁, ih hr⟩

end

theorem eraseElCore_mono (ss : Session) (m : Memory) (a : Addr) :
    FuelMono fun k => eraseElCore w k ss m a := by
  intro k
  induction k generalizing ss m a with
  | zero => intro r hr; cases hr
  | succ k ih =>
    intro r hr
    simp only [eraseElCore, Option.bind_eq_bind, Option.bind_eq_some_iff] at hr ⊢
    obtain ⟨m₁, hm₁, g, hg, m₂, hm₂, hr⟩ := hr
    exact ⟨m₁, hm₁, g, hg, m₂, eraseStoresArcs_mono (fun {m v r} => ih systemSession m v r) _ hm₂,
      hr⟩

theorem anyRefuses_mono {ask ask' : Addr → Option Bool}
    (he : ∀ {v r}, ask v = some r → ask' v = some r) (l : List Addr) {r : Bool}
    (hr : anyRefuses ask l = some r) : anyRefuses ask' l = some r := by
  induction l with
  | nil => exact hr
  | cons v l ih =>
    simp only [anyRefuses, Option.bind_eq_bind, Option.bind_eq_some_iff] at hr ⊢
    obtain ⟨b, hb, hr⟩ := hr
    refine ⟨b, he hb, ?_⟩
    cases b with
    | true => exact hr
    | false => exact ih hr

theorem eraseElPre_mono (m : Memory) (a : Addr) : FuelMono fun k => eraseElPre w m k a := by
  intro k
  induction k generalizing a with
  | zero => intro r hr; cases hr
  | succ k ih =>
    intro r hr
    simp only [eraseElPre, Option.bind_eq_bind, Option.bind_eq_some_iff] at hr ⊢
    obtain ⟨g, hg, hr⟩ := hr
    refine ⟨g, hg, ?_⟩
    split at hr
    · next hw => rwa [if_pos hw]
    · next hw =>
      rw [if_neg hw]
      obtain ⟨_, hask, hr⟩ := Option.bind_eq_some_iff.mp hr
      obtain ⟨l, hl, hr⟩ := Option.bind_eq_some_iff.mp hr
      refine Option.bind_eq_some_iff.mpr ⟨(), hask, ?_⟩
      exact Option.bind_eq_some_iff.mpr ⟨l, hl, anyRefuses_mono (fun {v r} => ih v r) l hr⟩

end Fuel

section Walk

variable {h : Holds} {m : Memory} {a : Addr} {w : Waits}

theorem Inv.listedArcs_eq (inv : Inv h m) (unheld : ∀ n, h.node n = 0) {e : ElemId} {s : Endpoint}
    (l : List NodeId) (hl : ∀ n ∈ l, n ∈ m.graph.listed e s) :
    ∃ arcs, listedArcs m l = some arcs ∧
      ∀ x, x ∈ arcs ↔ ∃ n ∈ l, ∃ arc, m.graph.arc n = some arc ∧ m.addrOf arc = some x := by
  induction l with
  | nil => exact ⟨[], rfl, by simp⟩
  | cons n l ih =>
    obtain ⟨arcs, harcs, hmem⟩ := ih fun n' hn' => hl n' (List.mem_cons_of_mem _ hn')
    obtain ⟨nd, x, v, hn, hd, hx, hv, harc, haddr, -⟩ :=
      inv.arc_of_unheld (hl n List.mem_cons_self) (unheld n)
    refine ⟨v :: arcs, by simp [listedArcs, hn, harcs, hd, hx, hv], fun y => ?_⟩
    simp only [List.mem_cons, hmem, exists_eq_or_imp]
    refine or_congr_left ⟨?_, ?_⟩
    · rintro rfl
      exact ⟨nd.value, harc, haddr⟩
    · rintro ⟨arc, harc', haddr'⟩
      obtain rfl : nd.value = arc := Option.some.inj (harc.symm.trans harc')
      exact Option.some.inj (haddr'.symm.trans haddr)

theorem Inv.incidentArcs_eq (inv : Inv h m) (unheld : ∀ n, h.node n = 0) (l : List LinkAddr)
    (hl : ∀ st ∈ l, ∃ el, m.elems st.impl = some el) :
    ∃ arcs, incidentArcs m l = some arcs ∧ ∀ x, x ∈ arcs ↔
      ∃ st ∈ l, ∃ arc s, m.graph.target arc s = some st.impl ∧ m.addrOf arc = some x := by
  induction l with
  | nil => exact ⟨[], rfl, by simp⟩
  | cons st l ih =>
    obtain ⟨arcs, harcs, hmem⟩ := ih fun st' hst' => hl st' (List.mem_cons_of_mem _ hst')
    obtain ⟨el, hel⟩ := hl st List.mem_cons_self
    have side : ∀ s, ∃ arcs, listedArcs m (el.arcs s) = some arcs ∧ ∀ x, x ∈ arcs ↔
        ∃ arc, m.graph.target arc s = some st.impl ∧ m.addrOf arc = some x := by
      intro s
      obtain ⟨arcs, harcs, hmem⟩ := inv.listedArcs_eq unheld (e := st.impl) (s := s) (el.arcs s)
        fun n hn => listed_stored hel ▸ hn
      refine ⟨arcs, harcs, fun x => ?_⟩
      rw [hmem, ← listed_stored hel]
      constructor
      · rintro ⟨n, hn, arc, harc, haddr⟩
        exact ⟨arc, (inv.coherent.listed_target hn harc).1, haddr⟩
      · rintro ⟨arc, ht, haddr⟩
        obtain ⟨n, hn, -, harc⟩ := inv.coherent.target_listed ht
        exact ⟨n, hn, arc, harc, haddr⟩
    obtain ⟨output, houtput, hmemo⟩ := side .beg
    obtain ⟨input, hinput, hmemi⟩ := side .fin
    refine ⟨output ++ input ++ arcs, by simp [incidentArcs, hel, houtput, hinput, harcs], fun x =>
      ?_⟩
    simp only [List.mem_append, hmemo, hmemi, hmem, List.mem_cons, exists_eq_or_imp]
    refine or_congr_left ⟨?_, ?_⟩
    · rintro (⟨arc, ht, haddr⟩ | ⟨arc, ht, haddr⟩)
      · exact ⟨arc, .beg, ht, haddr⟩
      · exact ⟨arc, .fin, ht, haddr⟩
    · rintro ⟨arc, s, ht, haddr⟩
      cases s with
      | beg => exact .inl ⟨arc, ht, haddr⟩
      | fin => exact .inr ⟨arc, ht, haddr⟩

variable {g : GlobalAddr} {ask : Addr → Option Bool} {l : List Addr}

theorem Inv.incidentArcs_iff (inv : Inv h m) (unheld : ∀ n, h.node n = 0)
    (hg : m.addrs a = some g) :
    ∃ arcs, incidentArcs m g.stores = some arcs ∧ ∀ x, x ∈ arcs ↔ Incident m a x := by
  obtain ⟨arcs, harcs, hmem⟩ := inv.incidentArcs_eq unheld g.stores fun st hst => by
    obtain ⟨el, hel, -⟩ := inv.stored hg hst
    exact ⟨el, hel⟩
  refine ⟨arcs, harcs, fun x => (hmem x).trans ⟨?_, ?_⟩⟩
  · rintro ⟨st, hst, arc, s, ht, haddr⟩
    exact ⟨st.impl, arc, s, inv.stores_addr hg hst, haddr, ht⟩
  · rintro ⟨e, arc, s, he, haddr, ht⟩
    obtain ⟨g', hg', st, hst, rfl⟩ := inv.addr_stores he
    obtain rfl : g = g' := by simpa [hg] using hg'
    exact ⟨st, hst, arc, s, ht, haddr⟩

theorem Inv.stored_of_incident (inv : Inv h m) {x : Addr} (i : Incident m a x) :
    ∃ g, m.addrs x = some g := by
  obtain ⟨_, _, _, -, harc, -⟩ := i
  obtain ⟨g, hg, -⟩ := inv.addr_stores harc
  exact ⟨g, hg⟩

theorem anyRefuses_false (hr : anyRefuses ask l = some false) : ∀ x ∈ l, ask x = some false := by
  induction l with
  | nil => simp
  | cons v l ih =>
    simp only [anyRefuses, Option.bind_eq_bind, Option.bind_eq_some_iff] at hr
    obtain ⟨b, hb, hr⟩ := hr
    cases b with
    | true => cases hr
    | false =>
      intro x hx
      rcases List.mem_cons.mp hx with rfl | hx
      · exact hb
      · exact ih hr x hx

theorem anyRefuses_returns (ask : Nat → Addr → Option Bool) (l : List Addr)
    (hl : ∀ x ∈ l, ∃ b, Converges (fun k => ask k x) b) :
    ∃ b, Converges (fun k => anyRefuses (ask k) l) b := by
  induction l with
  | nil => exact ⟨false, Converges.const false⟩
  | cons v l ih =>
    obtain ⟨b, hb⟩ := hl v List.mem_cons_self
    obtain ⟨b', hb'⟩ := ih fun x hx => hl x (List.mem_cons_of_mem _ hx)
    let rest : Bool → Nat → Option Bool := fun b k =>
      if b then some true else anyRefuses (ask k) l
    have rest_converges : ∃ r, Converges (rest b) r := by
      cases b with
      | true => exact ⟨true, Converges.const true⟩
      | false => exact ⟨b', hb'⟩
    obtain ⟨r, hr⟩ := rest_converges
    exact ⟨r, hb.bind hr⟩

theorem anyRefuses_true (hr : anyRefuses ask l = some true) : ∃ x ∈ l, ask x = some true := by
  induction l with
  | nil => cases hr
  | cons v l ih =>
    simp only [anyRefuses, Option.bind_eq_bind, Option.bind_eq_some_iff] at hr
    obtain ⟨b, hb, hr⟩ := hr
    cases b with
    | true => exact ⟨v, List.mem_cons_self, hb⟩
    | false =>
      obtain ⟨x, hx, hask⟩ := ih hr
      exact ⟨x, List.mem_cons_of_mem _ hx, hask⟩

theorem access_total (ss : Session) (stored : ∃ g, m.addrs a = some g) :
    ∃ rv, ss.access m (some a) = some rv := by
  obtain ⟨g, hg⟩ := stored
  simp only [Session.access, hg, Option.bind_eq_bind, Option.bind_some]
  split <;> exact ⟨_, rfl⟩

theorem Inv.askEnds (inv : Inv h m) (hg : m.addrs a = some g) :
    Session.askEnds w m a = some () := by
  obtain ⟨el, old, -, hel, hold, -⟩ := inv.clearEnd hg .beg
  have asked : ∃ b, setBegPre w m a none = some b := by
    cases old <;> exact ⟨_, by simp [setBegPre, hg, hel, hold]; rfl⟩
  have typed : ∃ type, systemSession.getType m a = some type := by
    obtain ⟨rv, hrv⟩ := access_total systemSession ⟨g, hg⟩
    simp only [Session.getType, hrv, hg, hel, Option.bind_eq_bind, Option.bind_some]
    split <;> exact ⟨_, rfl⟩
  obtain ⟨b, hb⟩ := asked
  obtain ⟨type, htype⟩ := typed
  simp only [Session.askEnds, htype, hb, Option.bind_eq_bind, Option.bind_some]
  split <;> rfl

/-- `erase_el_pre` agrees only after it has walked over everything that can be reached. -/
theorem Inv.acc_of_eraseElPre (inv : Inv h m) (unheld : ∀ n, h.node n = 0) {k : Nat}
    (hr : eraseElPre w m k a = some false) : Acc (fun x y => Incident m y x) a := by
  induction k generalizing a with
  | zero => cases hr
  | succ k ih =>
    simp only [eraseElPre, Option.bind_eq_bind, Option.bind_eq_some_iff] at hr
    obtain ⟨g, hg, hr⟩ := hr
    obtain ⟨arcs, harcs, hmem⟩ := inv.incidentArcs_iff unheld hg
    split at hr
    · cases hr
    · rw [inv.askEnds hg, Option.bind_some, harcs, Option.bind_some] at hr
      exact ⟨_, fun x hx => ih (anyRefuses_false hr x ((hmem x).mpr hx))⟩

theorem Inv.eraseElPre_returns (inv : Inv h m) (unheld : ∀ n, h.node n = 0) (w : Waits)
    (acc : Acc (fun x y => Incident m y x) a) (stored : ∃ g, m.addrs a = some g) :
    ∃ b, Converges (fun k => eraseElPre w m k a) b := by
  induction acc with
  | intro a _ ih =>
    obtain ⟨g, hg⟩ := stored
    obtain ⟨arcs, harcs, hmem⟩ := inv.incidentArcs_iff unheld hg
    obtain ⟨b, hb⟩ := anyRefuses_returns (fun k x => eraseElPre w m k x) arcs fun x hx =>
      ih x ((hmem x).mp hx) (inv.stored_of_incident ((hmem x).mp hx))
    have hbody : ∀ k, eraseElPre w m (k + 1) a =
        if w m a .diePreReal [a] then some true else anyRefuses (eraseElPre w m k) arcs := by
      intro k
      simp [eraseElPre, hg, inv.askEnds hg, harcs]
    cases hw : w m a .diePreReal [a] with
    | true =>
      refine ⟨true, .of_succ ?_⟩
      simp only [hbody, hw, if_true]
      exact Converges.const true
    | false =>
      refine ⟨b, .of_succ ?_⟩
      simp only [hbody, hw, Bool.false_eq_true, if_false]
      exact hb

theorem eraseElPre_calm (calm : ∀ b, w m b .diePreReal [b] = false) {k : Nat} :
    ∀ {a}, eraseElPre w m k a ≠ some true := by
  induction k with
  | zero => simp [eraseElPre]
  | succ k ih =>
    intro a hr
    simp only [eraseElPre, Option.bind_eq_bind, Option.bind_eq_some_iff, calm,
      Bool.false_eq_true, if_false] at hr
    obtain ⟨g, -, -, -, arcs, -, hr⟩ := hr
    obtain ⟨x, -, hx⟩ := anyRefuses_true hr
    exact ih hx

theorem Inv.eraseElPre_of_acc (inv : Inv h m) (unheld : ∀ n, h.node n = 0)
    (calm : ∀ b, w m b .diePreReal [b] = false) (acc : Acc (fun x y => Incident m y x) a)
    (stored : ∃ g, m.addrs a = some g) : Converges (fun k => eraseElPre w m k a) false := by
  obtain ⟨b, hb⟩ := inv.eraseElPre_returns unheld w acc stored
  cases b with
  | false => exact hb
  | true =>
    obtain ⟨k, hk⟩ := hb.exists_fuel
    exact absurd hk (eraseElPre_calm calm)

end Walk

section EraseEl

variable {h : Holds} {m m' : Memory} {a : Addr} {w : Waits} {ss : Session}

theorem access_ok : ss.access m (some a) = some rvOk ↔
    ∃ g, m.addrs a = some g ∧ g.dead = false ∧ ss.opened g.seg = true := by
  cases hg : m.addrs a with
  | none => simp [Session.access, hg]
  | some g =>
    cases hd : g.dead <;> cases ho : ss.opened g.seg <;>
      simp [Session.access, hg, hd, ho, rvErrGen, rvOk]

theorem Inv.erased_of_acc (inv : Inv h m) (unheld : ∀ n, h.node n = 0)
    (acc : Acc (fun x y => Incident m y x) a) (ok : ss.access m (some a) = some rvOk) :
    ∃ m', Erased h a m m' ∧ Converges (fun k => eraseElCore w k ss m a) m' :=
  erases_of_acc acc h m ss (fun _ _ => id) inv (fun _ _ n _ _ => unheld n) (access_ok.mp ok)

theorem Inv.eraseEl (inv : Inv h m) (unheld : ∀ n, h.node n = 0) {a : Option Addr} {k : Nat}
    {rv : Retval} (hr : ss.eraseEl w k m a = some (m', rv)) :
    (m' = m ∧ rv ≠ rvOk) ∨
      ∃ b, a = some b ∧ rv = rvOk ∧ ss.access m (some b) = some rvOk ∧ Erased h b m m' := by
  simp only [Session.eraseEl, Option.bind_eq_bind, Option.bind_eq_some_iff] at hr
  obtain ⟨rv₀, haccess, hr⟩ := hr
  split at hr
  · next hrv =>
    obtain ⟨rfl, rfl⟩ := Prod.mk.inj (Option.some.inj hr)
    exact .inl ⟨rfl, hrv⟩
  · next hrv =>
    obtain rfl : rv₀ = rvOk := by simpa using hrv
    obtain ⟨b, hb, hbody⟩ := Option.bind_eq_some_iff.mp hr
    subst hb
    obtain ⟨refused, hpre, hr⟩ := Option.bind_eq_some_iff.mp hbody
    cases refused with
    | true =>
      obtain ⟨rfl, rfl⟩ := Prod.mk.inj (Option.some.inj hr)
      exact .inl ⟨rfl, by decide⟩
    | false =>
      obtain ⟨m₁, hm₁, hr⟩ := Option.bind_eq_some_iff.mp hr
      obtain ⟨rfl, rfl⟩ := Prod.mk.inj (Option.some.inj hr)
      obtain ⟨m₂, er, hm₂⟩ :=
        inv.erased_of_acc (w := w) unheld (inv.acc_of_eraseElPre unheld hpre) haccess
      obtain rfl := ((eraseElCore_mono ss m b).converges hm₁).unique hm₂
      exact .inr ⟨b, rfl, rfl, haccess, er⟩

theorem eraseEl_of_access (ok : ss.access m (some a) = some rvOk) (k : Nat) :
    ss.eraseEl w k m (some a) = (eraseElPre w m k a).bind fun refused =>
      if refused then some (m, rvElseGen)
      else (eraseElCore w k ss m a).bind fun m => some (m, rvOk) := by
  simp only [Session.eraseEl, ok]
  rfl

theorem Inv.eraseEl_returns (inv : Inv h m) (unheld : ∀ n, h.node n = 0)
    (calm : ∀ b, w m b .diePreReal [b] = false) (acc : Acc (fun x y => Incident m y x) a)
    (ok : ss.access m (some a) = some rvOk) :
    ∃ m', Erased h a m m' ∧ Converges (fun k => ss.eraseEl w k m (some a)) (m', rvOk) := by
  obtain ⟨g, hg, -⟩ := access_ok.mp ok
  obtain ⟨m', er, hm'⟩ := inv.erased_of_acc (w := w) unheld acc ok
  refine ⟨m', er, ?_⟩
  simp only [eraseEl_of_access ok]
  exact (inv.eraseElPre_of_acc unheld calm acc ⟨g, hg⟩).bind (hm'.bind (Converges.const _))

theorem Inv.eraseEl_ends (inv : Inv h m) (unheld : ∀ n, h.node n = 0) (w : Waits)
    (acc : Acc (fun x y => Incident m y x) a) (ok : ss.access m (some a) = some rvOk) :
    ∃ fuel r, ss.eraseEl w fuel m (some a) = some r := by
  obtain ⟨g, hg, -⟩ := access_ok.mp ok
  obtain ⟨m', -, hm'⟩ := inv.erased_of_acc (w := w) unheld acc ok
  obtain ⟨b, hb⟩ := inv.eraseElPre_returns unheld w acc ⟨g, hg⟩
  suffices hr : ∃ r, Converges (fun k => ss.eraseEl w k m (some a)) r by
    obtain ⟨r, hr⟩ := hr
    obtain ⟨fuel, hfuel⟩ := hr.exists_fuel
    exact ⟨fuel, r, hfuel⟩
  simp only [eraseEl_of_access ok]
  cases b with
  | true => exact ⟨_, hb.bind (Converges.const _)⟩
  | false => exact ⟨_, hb.bind (hm'.bind (Converges.const _))⟩

theorem Inv.acc_of_eraseEl (inv : Inv h m) (unheld : ∀ n, h.node n = 0)
    (calm : ∀ b, w m b .diePreReal [b] = false) (ok : ss.access m (some a) = some rvOk) {k : Nat}
    {r : Memory × Retval} (hr : ss.eraseEl w k m (some a) = some r) :
    Acc (fun x y => Incident m y x) a := by
  rw [eraseEl_of_access ok] at hr
  obtain ⟨refused, hpre, -⟩ := Option.bind_eq_some_iff.mp hr
  cases refused with
  | true => exact absurd hpre (eraseElPre_calm calm)
  | false => exact inv.acc_of_eraseElPre unheld hpre

theorem eraseEl_mono (a : Option Addr) : FuelMono fun k => ss.eraseEl w k m a := by
  intro k r hr
  simp only [Session.eraseEl, Option.bind_eq_bind, Option.bind_eq_some_iff] at hr ⊢
  obtain ⟨rv, hrv, hr⟩ := hr
  refine ⟨rv, hrv, ?_⟩
  split at hr
  · next h => rwa [if_pos h]
  · next h =>
    rw [if_neg h]
    obtain ⟨b, hb, hbody⟩ := Option.bind_eq_some_iff.mp hr
    obtain ⟨refused, hpre, hr⟩ := Option.bind_eq_some_iff.mp hbody
    refine Option.bind_eq_some_iff.mpr ⟨b, hb, Option.bind_eq_some_iff.mpr
      ⟨refused, eraseElPre_mono m b _ _ hpre, ?_⟩⟩
    cases refused with
    | true => exact hr
    | false =>
      obtain ⟨m₁, hm₁, hr⟩ := Option.bind_eq_some_iff.mp hr
      exact Option.bind_eq_some_iff.mpr ⟨m₁, eraseElCore_mono ss m b _ _ hm₁, hr⟩

end EraseEl

end ScCore.Store
