import ScCore.Store.Filling
import ScCore.Store.Gen3
import ScCore.Search.StdWorld

/-!
# What survives an erasure

Erasures as addresses show them: what survives keeps its ends, its type and its segment, and what
dies hangs at something that has been erased.
-/

namespace ScCore.Store

open Memory TmpSegment Relation

theorem quiet_of_steady {st : State} (steady : Steady st) : Search.Quiet st.memory :=
  ⟨Inv.whole steady.inv (fun _ => rfl) steady.housed, _, steady.inv, fun _ => rfl⟩

structure Erodes (refs : Addr → Nat) (roots : Addr → Prop) (m m' : Memory) : Prop where
  steady : Steady ⟨m', refs⟩
  live : ∀ b, m'.liveAddr b = true → m.liveAddr b = true
  ends : ∀ b, m'.liveAddr b = true → ∀ s, m'.endOf b s = m.endOf b s
  typeOf : ∀ b, m'.liveAddr b = true → m'.typeOf b = m.typeOf b
  segOf : ∀ b, m'.liveAddr b = true → Search.segOf m' b = Search.segOf m b
  dead : ∀ r, roots r → m'.liveAddr r = false
  killed : ∀ b, m.liveAddr b = true → m'.liveAddr b = false →
    ∃ r, roots r ∧ ReflTransGen (Incident m) r b

section

variable {refs : Addr → Nat} {roots roots' : Addr → Prop} {ss : Session} {w : Waits}
  {m m' m'' : Memory} {a b x r : Addr} {rv : Retval} {fuel : Nat} {s : Endpoint}

theorem Erased.survivor_ends {h : Holds} (er : Erased h a m m') (inv : Inv h m)
    (live : m'.liveAddr x = true) : m'.endOf x s = m.endOf x s := by
  obtain ⟨g', hg', -⟩ := liveAddr_eq_true.mp live
  obtain ⟨g, hg, -, hi, -⟩ := er.cascade.shrinks.addr hg'
  have own := inv.stores_addr hg List.mem_cons_self
  rw [endOf_target hg', endOf_target hg, hi, ((er.cascade.keeps x live g.impl own).2 s).1]
  cases ht : m.graph.target g.impl s with
  | none => rfl
  | some e =>
    have kept := ((er.cascade.keeps x live g.impl own).2 s).1.trans ht
    obtain ⟨o, b, ho, hob, -⟩ := er.inv.target_addr kept
    have he' : m'.addrOf e = some b := (addrOf_stored ho).trans hob
    rw [Option.bind_some, Option.bind_some, he', er.cascade.shrinks.addrOf he']

theorem Steady.eraseEl (steady : Steady ⟨m, refs⟩) {a : Option Addr}
    (hr : ss.eraseEl w fuel m a = some (m', rv)) : Steady ⟨m', refs⟩ := by
  have exec : (Op.eraseEl a).exec ss w fuel ⟨m, refs⟩ = some ⟨m', refs⟩ := by
    rw [Op.exec, hr]
    rfl
  refine Steady.exec steady ?_ exec
  trivial

namespace Erodes

theorem refl (steady : Steady ⟨m, refs⟩) (none : ∀ r, ¬roots r) : Erodes refs roots m m where
  steady := steady
  live _ live := live
  ends _ _ _ := rfl
  typeOf _ _ := rfl
  segOf _ _ := rfl
  dead r root := absurd root (none r)
  killed b live dead := by
    rw [live] at dead
    cases dead

section

variable (er : Erodes refs roots m m')
include er

theorem closed (inv : Inv (clientHolds refs) m) (dead : m'.liveAddr a = false)
    (hangs : ReflTransGen (Incident m) a b) : m'.liveAddr b = false := by
  induction hangs with
  | refl => exact dead
  | @tail y z _ incident ih =>
    by_contra live
    have live : m'.liveAddr z = true := by simpa using live
    obtain ⟨s, hend⟩ := inv.incident_iff.mp incident
    rw [← er.ends z live s] at hend
    obtain ⟨-, -, -, -, -, there, -⟩ := (er.steady.inv : Inv (clientHolds refs) m').endOf_some hend
    rw [ih] at there
    cases there

theorem dead_iff (inv : Inv (clientHolds refs) m) (alive : m.liveAddr b = true) :
    m'.liveAddr b = false ↔ ∃ r, roots r ∧ ReflTransGen (Incident m) r b := by
  constructor
  · exact er.killed b alive
  · rintro ⟨r, root, hangs⟩
    exact er.closed inv (er.dead r root) hangs

theorem incident (inv : Inv (clientHolds refs) m) (h : Incident m' a b) : Incident m a b := by
  have inv' : Inv (clientHolds refs) m' := er.steady.inv
  obtain ⟨s, hend⟩ := inv'.incident_iff.mp h
  obtain ⟨-, -, -, -, -, -, live⟩ := inv'.endOf_some hend
  exact inv.incident_iff.mpr ⟨s, (er.ends b live s).symm.trans hend⟩

theorem trans (er' : Erodes refs roots' m' m'') (inv : Inv (clientHolds refs) m) :
    Erodes refs (fun r => roots r ∨ roots' r) m m'' where
  steady := er'.steady
  live b live := er.live b (er'.live b live)
  ends b live s := (er'.ends b live s).trans (er.ends b (er'.live b live) s)
  typeOf b live := (er'.typeOf b live).trans (er.typeOf b (er'.live b live))
  segOf b live := (er'.segOf b live).trans (er.segOf b (er'.live b live))
  dead r root := by
    obtain root | root := root
    · by_contra live
      have live := er'.live r (by simpa using live)
      rw [er.dead r root] at live
      cases live
    · exact er'.dead r root
  killed b alive dead := by
    cases there : m'.liveAddr b with
    | false =>
      obtain ⟨r, root, hangs⟩ := er.killed b alive there
      exact ⟨r, .inl root, hangs⟩
    | true =>
      obtain ⟨r, root, hangs⟩ := er'.killed b there dead
      exact ⟨r, .inr root, ReflTransGen.mono (fun _ _ => er.incident inv) _ _ hangs⟩

theorem mono (same : ∀ r, roots r ↔ roots' r) :
    Erodes refs roots' m m' where
  steady := er.steady
  live := er.live
  ends := er.ends
  typeOf := er.typeOf
  segOf := er.segOf
  dead r root := er.dead r ((same r).mpr root)
  killed b alive dead := by
    obtain ⟨r, root, hangs⟩ := er.killed b alive dead
    exact ⟨r, (same r).mp root, hangs⟩

theorem survives (inv : Inv (clientHolds refs) m) (alive : m.liveAddr b = true) (other : ¬roots b)
    (ends : ∀ s e, m.endOf b s = some e → m'.liveAddr e = true) : m'.liveAddr b = true := by
  by_contra dead
  obtain ⟨r, root, hangs⟩ := er.killed b alive (by simpa using dead)
  obtain rfl | ⟨z, hangs, incident⟩ := ReflTransGen.cases_tail hangs
  · exact other root
  · obtain ⟨s, hend⟩ := inv.incident_iff.mp incident
    have there := ends s z hend
    rw [er.closed inv (er.dead r root) hangs] at there
    cases there

theorem access (live : m'.liveAddr b = true) (ok : ss.access m (some b) = some rvOk) :
    ss.access m' (some b) = some rvOk := by
  obtain ⟨g, hg, -, opened⟩ := access_ok.mp ok
  obtain ⟨g', hg', hd⟩ := liveAddr_eq_true.mp live
  have seg := er.segOf b live
  rw [Search.segOf, Search.segOf, hg, hg', Option.map_some, Option.map_some] at seg
  exact access_ok.mpr ⟨g', hg', hd, Option.some.inj seg ▸ opened⟩

end

end Erodes

theorem Steady.erodes (steady : Steady ⟨m, refs⟩)
    (hr : ss.eraseEl w fuel m (some a) = some (m', rvOk)) : Erodes refs (fun r => r = a) m m' := by
  have inv : Inv (clientHolds refs) m := steady.inv
  obtain ⟨-, failed⟩ | ⟨b, same, -, -, er⟩ := inv.eraseEl (fun _ => rfl) hr
  · exact absurd rfl failed
  · obtain rfl := Option.some.inj same
    refine ⟨steady.eraseEl hr, fun b live => er.cascade.shrinks.liveAddr live,
      fun b live s => er.survivor_ends inv live, fun b live => er.typeOf inv live,
      fun b live => ?_, ?_, fun b alive dead => ⟨a, rfl, er.cascade.killed b alive dead⟩⟩
    · obtain ⟨g', hg', -⟩ := liveAddr_eq_true.mp live
      obtain ⟨g, hg, hs, -⟩ := er.cascade.shrinks.addr hg'
      rw [Search.segOf, Search.segOf, hg, hg', Option.map_some, Option.map_some, hs]
    · rintro r rfl
      exact er.dead

theorem acc_of_order {h : Holds} (inv : Inv h m) {P : Addr → Prop}
    (later : ∀ a x, P a → Incident m a x → P x ∧ a < x) (start : P a) :
    Acc (fun x y => Incident m y x) a := by
  have bounded : ∀ n a, P a → m.nextAddr - a = n → Acc (fun x y => Incident m y x) a := by
    intro n
    induction n using Nat.strong_induction_on with
    | _ n ih =>
      rintro a hP rfl
      refine Acc.intro a fun x incident => ?_
      obtain ⟨hx, before⟩ := later a x hP incident
      obtain ⟨g, hg⟩ := inv.stored_of_incident incident
      have bound := inv.addr_lt hg
      exact ih (m.nextAddr - x) (Nat.sub_lt_sub_left (lt_trans before bound) before) x hx rfl
  exact bounded _ a start rfl

theorem eraseEl_calm (calm : ∀ b, w m b .diePreReal [b] = false)
    (ok : ss.access m (some a) = some rvOk)
    (hr : ss.eraseEl w fuel m (some a) = some (m', rv)) : rv = rvOk := by
  rw [eraseEl_of_access ok] at hr
  obtain ⟨refused, hpre, hr⟩ := Option.bind_eq_some_iff.mp hr
  cases refused with
  | true => exact absurd hpre (eraseElPre_calm calm)
  | false =>
    obtain ⟨m₁, -, hr⟩ := Option.bind_eq_some_iff.mp hr
    exact (Prod.mk.inj (Option.some.inj hr)).2.symm

end

end ScCore.Store
