import ScCore.Store.Housing

/-!
# Runs in which contents are set

A content touches neither ends nor lists, so what holds between the calls that make the graph
also holds when contents are set among them.
-/

namespace ScCore.Store

open Memory TmpSegment

/-- `sc_session::set_content`; nobody can veto it. -/
def Session.setContent (ss : Session) (m : Memory) (a : Addr) (c : Content) :
    Option (Memory × Retval) := do
  let rv ← ss.access m (some a)
  if rv ≠ rvOk then some (m, rv)
  else
    let g ← m.addrs a
    let m ← TmpSegment.setContent m g.impl c
    some (m, rvOk)

inductive ReachesFilling (ok : Guard) (st : State) : State → Prop where
  | refl : ReachesFilling ok st st
  | call {st₁ st₂ : State} (ss : Session) (w : Waits) (fuel : Nat) (op : Op) :
      ReachesFilling ok st st₁ → ok ss w op st₁.memory → op.exec ss w fuel st₁ = some st₂ →
      ReachesFilling ok st st₂
  | setContent {st₁ : State} {m : Memory} {rv : Retval} (ss : Session) (a : Addr) (c : Content) :
      ReachesFilling ok st st₁ → ss.setContent st₁.memory a c = some (m, rv) →
      ReachesFilling ok st { st₁ with memory := m }

variable {m m' : Memory} {ss : Session} {a : Addr} {c : Content} {rv : Retval}
  {ok : Guard} {st st' : State}

theorem Reaches.filling (run : Reaches ok st st') : ReachesFilling ok st st' := by
  induction run with
  | refl => exact .refl
  | step ss w fuel op _ hop hexec ih => exact .call ss w fuel op ih hop hexec

theorem renames_setContent (hr : ss.setContent m a c = some (m', rv)) :
    Renames (fun _ => True) m m' := by
  obtain ⟨rv', -, hr⟩ := Option.bind_eq_some_iff.mp hr
  split at hr
  · cases hr
    exact Renames.refl _ m
  · obtain ⟨g, -, hr⟩ := Option.bind_eq_some_iff.mp hr
    obtain ⟨m₁, hm₁, hr⟩ := Option.bind_eq_some_iff.mp hr
    cases hr
    have label : Relabels.OnLabel fun el => { el with cont := c } :=
      ⟨fun _ => rfl, fun _ => rfl, fun _ => rfl, fun _ => rfl, fun _ => rfl⟩
    exact (Renames.modifyElem label (fun _ => rfl) hm₁).mono fun _ _ => trivial

structure Steady (st : State) : Prop where
  inv : StateInv st
  covered : Covered st.memory
  housed : Housed st.memory

theorem Steady.initial (uri tmpPrefix : SegId → ScString) :
    Steady (State.initial uri tmpPrefix) where
  inv := (StateInv.initial uri tmpPrefix).1
  covered := fun _ _ _ hg => nomatch hg
  housed := by
    refine ⟨?_, ?_⟩
    · intro a g st hg
      cases hg
    · intro x gx b gb st s hx
      cases hx

theorem Steady.exec (steady : Steady st) {w : Waits} {fuel : Nat} {op : Op}
    (ok : arcsKeepType ss w op st.memory) (hr : op.exec ss w fuel st = some st') : Steady st' := by
  obtain ⟨inv, -, covered⟩ := steady.inv.exec ok hr
  exact ⟨inv, covered steady.covered, steady.housed.exec steady.inv hr⟩

theorem Steady.createEl {refs : Addr → Nat} (steady : Steady ⟨m, refs⟩) {seg : SegId} {t : ScType}
    {r : Option Addr} (hr : ss.createEl m seg t = some (m', r, rv)) : Steady ⟨m', refs⟩ := by
  have exec : (Op.createEl seg t).exec ss noWaits 0 ⟨m, refs⟩ = some ⟨m', refs⟩ := by
    rw [Op.exec, hr]
    rfl
  refine Steady.exec steady ?_ exec
  trivial

theorem Steady.gen3 {refs : Addr → Nat} (steady : Steady ⟨m, refs⟩) {w : Waits} {fuel : Nat}
    {e1 e3 r : Option Addr} {seg : SegId} {t : ScType}
    (hr : ss.gen3 w fuel m e1 seg t e3 = some (m', r, rv)) : Steady ⟨m', refs⟩ := by
  have exec : (Op.gen3 e1 seg t e3).exec ss w fuel ⟨m, refs⟩ = some ⟨m', refs⟩ := by
    rw [Op.exec, hr]
    rfl
  refine Steady.exec steady ?_ exec
  trivial

theorem Steady.renames {P : ElemId → Prop} (steady : Steady st) (renames : Renames P st.memory m) :
    Steady { st with memory := m } :=
  ⟨renames.inv steady.inv, renames.relabels.tallied.covered steady.covered,
    steady.housed.relabels renames.relabels⟩

theorem Steady.setContent (steady : Steady st) (hr : ss.setContent st.memory a c = some (m, rv)) :
    Steady { st with memory := m } :=
  steady.renames (renames_setContent hr)

theorem ReachesFilling.steady {uri tmpPrefix : SegId → ScString}
    (run : ReachesFilling arcsKeepType (State.initial uri tmpPrefix) st) : Steady st := by
  induction run with
  | refl => exact Steady.initial uri tmpPrefix
  | call ss w fuel op _ ok hexec ih => exact ih.exec ok hexec
  | setContent ss a c _ hr ih => exact ih.setContent hr

section Calls

variable {refs : Addr → Nat} {seg s2 s4 : SegId} {t t2 t4 : ScType}

section

variable (run : ReachesFilling arcsKeepType st ⟨m, refs⟩)
include run

theorem ReachesFilling.createEl {r : Option Addr} (hr : ss.createEl m seg t = some (m', r, rv)) :
    ReachesFilling arcsKeepType st ⟨m', refs⟩ := by
  have exec : (Op.createEl seg t).exec ss noWaits 0 ⟨m, refs⟩ = some ⟨m', refs⟩ := by
    rw [Op.exec, hr]
    rfl
  refine .call ss noWaits 0 _ run ?_ exec
  trivial

theorem ReachesFilling.gen5 {w : Waits} {fuel : Nat} {e1 e3 e5 : Option Addr}
    {r : Option (Addr × Addr)} (hr : ss.gen5 w fuel m e1 s2 t2 e3 s4 t4 e5 = some (m', r, rv)) :
    ReachesFilling arcsKeepType st ⟨m', refs⟩ := by
  have exec : (Op.gen5 e1 s2 t2 e3 s4 t4 e5).exec ss w fuel ⟨m, refs⟩ = some ⟨m', refs⟩ := by
    rw [Op.exec, hr]
    rfl
  refine .call ss w fuel _ run ?_ exec
  trivial

theorem ReachesFilling.setsContent (hr : ss.setContent m a c = some (m', rv)) :
    ReachesFilling arcsKeepType st ⟨m', refs⟩ :=
  .setContent ss a c run hr

end

end Calls

end ScCore.Store
