import ScCore.Scp.Process
import Mathlib.Logic.Relation

/-!
# The program counter of a process

Operators keep exactly one component marked `ACTIVE_`, and a step moves it by
the state in which the operator has left the process. The error branch of the
step falls through into the normal one, so this holds of a step exactly when no
error is handled by a successor.
-/

namespace ScCore.Scp

open Relation

/-! ## States -/

namespace Process

variable {Op : Type} {p p' : Process Op} {s t : StateSet}

theorem excludeFrom_states :
    (p.excludeFrom s).states t = if t = s then p.states t - 1 else p.states t := rfl

theorem includeIn_states :
    (p.includeIn s).states t = if t = s then p.states t + 1 else p.states t := rfl

theorem checkState_congr (h : p'.states = p.states) : p'.checkState s = p.checkState s := by
  rw [checkState, checkState, h]

theorem checkState_renew : (p.renew s).checkState s = true := by
  simp [checkState, renew, excludeFrom, includeIn]

def Once (p : Process Op) : Prop := ∀ s, p.states s ≤ 1

theorem Once.excludeFrom (once : Once p) (s : StateSet) : Once (p.excludeFrom s) := by
  intro t
  have := once t
  rw [excludeFrom_states]
  split <;> omega

theorem Once.gone (once : Once p) (s : StateSet) : (p.excludeFrom s).states s = 0 := by
  have := once s
  rw [excludeFrom_states, if_pos rfl]
  omega

theorem excludeFrom_zero (h : p.states t = 0) (s : StateSet) : (p.excludeFrom s).states t = 0 := by
  rw [excludeFrom_states]
  split <;> omega

theorem Once.includeIn (once : Once p) (gone : p.states s = 0) : Once (p.includeIn s) := by
  intro t
  rw [includeIn_states]
  split
  · next h =>
    subst h
    omega
  · exact once t

theorem Once.renew (once : Once p) (s : StateSet) : Once (p.renew s) :=
  (once.excludeFrom s).includeIn (once.gone s)

def uncontrolled (p : Process Op) : Process Op :=
  (((p.excludeFrom .then').excludeFrom .else').excludeFrom .repeat').excludeFrom .error

theorem Once.uncontrolled (once : Once p) : Once p.uncontrolled ∧
    p.uncontrolled.states .then' = 0 ∧ p.uncontrolled.states .else' = 0 ∧
    p.uncontrolled.states .repeat' = 0 ∧ p.uncontrolled.states .error = 0 := by
  have o₁ := once.excludeFrom .then'
  have o₂ := o₁.excludeFrom .else'
  have o₃ := o₂.excludeFrom .repeat'
  refine ⟨o₃.excludeFrom .error, ?_, ?_, ?_, o₃.gone .error⟩
  · exact excludeFrom_zero (excludeFrom_zero (excludeFrom_zero (once.gone .then') _) _) _
  · exact excludeFrom_zero (excludeFrom_zero (o₁.gone .else') _) _
  · exact excludeFrom_zero (o₂.gone .repeat') _

theorem setState_dead : p.setState ScpState.dead = some (p.renew .dead) := rfl

structure Restates (p p' : Process Op) : Prop where
  active : p'.active = p.active
  nextArc : p'.nextArc = p.nextArc
  once : Once p → Once p'

namespace Restates

theorem refl (p : Process Op) : Restates p p := ⟨rfl, rfl, id⟩

theorem trans {q : Process Op} (r : Restates p q) (r' : Restates q p') : Restates p p' :=
  ⟨r'.active.trans r.active, r'.nextArc.trans r.nextArc, r'.once ∘ r.once⟩

theorem renew (p : Process Op) (s : StateSet) : Restates p (p.renew s) :=
  ⟨rfl, rfl, fun once => once.renew s⟩

variable {c : ScpState}

theorem setControl (h : p.setControl c = some p') : Restates p p' := by
  unfold Process.setControl at h
  split at h
  · exact Option.some.inj h ▸ refl p
  split at h
  · exact Option.some.inj h ▸ ⟨rfl, rfl, fun o => o.uncontrolled.1.includeIn o.uncontrolled.2.1⟩
  split at h
  · exact Option.some.inj h ▸ ⟨rfl, rfl, fun o => o.uncontrolled.1.includeIn o.uncontrolled.2.2.1⟩
  split at h
  · exact Option.some.inj h ▸ ⟨rfl, rfl, fun o => o.uncontrolled.1.includeIn o.uncontrolled.2.2.2.1⟩
  · cases h

theorem setSched (p : Process Op) (c : ScpState) : Restates p (p.setSched c) := by
  unfold Process.setSched
  split
  · exact refl p
  · refine ⟨rfl, rfl, fun once => ?_⟩
    have o := (once.excludeFrom .sleep).excludeFrom .run
    split
    · exact o.includeIn (excludeFrom_zero (once.gone .sleep) .run)
    · exact o.includeIn ((once.excludeFrom .sleep).gone .run)

theorem setState (h : p.setState c = some p') : Restates p p' := by
  simp only [Process.setState, Option.bind_eq_bind, Option.bind_eq_some_iff,
    Option.some.injEq] at h
  obtain ⟨p₁, h₁, rfl⟩ := h
  have renewed : ∀ (b : Prop) [Decidable b] (q : Process Op) (s : StateSet),
      Restates q (if b then q.renew s else q) := by
    intro b _ q s
    split
    · exact renew q s
    · exact refl q
  exact (((setControl h₁).trans (setSched p₁ _)).trans (renewed _ _ .dead)).trans
    (renewed _ _ .error)

end Restates

end Process

/-! ## Operators -/

section Operators

variable {W Op Ty : Type} {M : Machine W Op Ty} {p p' : Process Op} {w w' : W}

/-- One component is marked `ACTIVE_`, and new arcs are new. -/
structure OneCounter (p : Process Op) : Prop where
  one : ∃ c, p.active = [c] ∧ c.1 < p.nextArc
  once : p.Once

@[simp] theorem moveTo_states (active : Option (ArcId × Op)) (op : Op) :
    (Machine.moveTo p active op).states = p.states := by
  cases active <;> rfl

theorem checkState_moveTo (active : Option (ArcId × Op)) (op : Op) (s : StateSet) :
    (Machine.moveTo p active op).checkState s = p.checkState s :=
  Process.checkState_congr (moveTo_states active op)

namespace OneCounter

theorem create (init : Op) : OneCounter (Process.create init) :=
  ⟨⟨(0, init), rfl, Nat.one_pos⟩, fun _ => Nat.zero_le 1⟩

theorem restates (oc : OneCounter p) (r : p.Restates p') : OneCounter p' := by
  obtain ⟨c, hc, hlt⟩ := oc.one
  exact ⟨⟨c, r.active.trans hc, r.nextArc ▸ hlt⟩, r.once oc.once⟩

theorem switchTo (oc : OneCounter p) (op : Op) : OneCounter (p.switchTo op) := by
  obtain ⟨⟨arc, old⟩, hc, hlt⟩ := oc.one
  exact ⟨⟨(arc, op), by simp [Process.switchTo, hc], hlt⟩, oc.once⟩

theorem perform (oc : OneCounter p) {a : Action Op} (h : a.perform p = some p') :
    OneCounter p' := by
  cases a with
  | setState state => exact oc.restates (.setState h)
  | pushAndSwitch init =>
    obtain rfl := Option.some.inj h
    have pushed : OneCounter { p with stack := p.getActiveOp.map (·.2) :: p.stack } :=
      ⟨oc.one, oc.once⟩
    cases init with
    | none => exact pushed
    | some op => exact pushed.switchTo op
  | processReturn returnState =>
    simp only [Action.perform, Process.processReturn] at h
    split at h
    · exact oc.restates (.setState h)
    · obtain ⟨p₁, h₁, h⟩ := Option.bind_eq_some_iff.mp h
      simp only [Process.popAndSwitch] at h₁
      split at h₁
      · next op rest _ =>
        obtain rfl := Option.some.inj h₁
        have popped : OneCounter { p.switchTo op with stack := rest } :=
          ⟨(oc.switchTo op).one, (oc.switchTo op).once⟩
        exact popped.restates (.setState h)
      · cases h₁

theorem performAll (l : List (Action Op)) :
    ∀ {p : Process Op}, OneCounter p → performAll l p = some p' → OneCounter p' := by
  induction l with
  | nil => exact fun oc h => Option.some.inj h ▸ oc
  | cons a l ih =>
    intro p oc h
    obtain ⟨p₁, h₁, h⟩ := Option.bind_eq_some_iff.mp h
    exact ih (oc.perform h₁) h

theorem runOperator (oc : OneCounter p) (h : M.runOperator w p = some (w', p')) :
    OneCounter p' := by
  have failed : ∀ {w₁ : W} {p₁ : Process Op}, OneCounter p₁ →
      ((p₁.setState ScpState.error).map fun p => (w₁, p)) = some (w', p') → OneCounter p' := by
    intro w₁ p₁ oc₁ h
    obtain ⟨p₂, h₂, heq⟩ := Option.map_eq_some_iff.mp h
    obtain ⟨-, rfl⟩ := Prod.mk.inj heq
    exact oc₁.restates (.setState h₂)
  unfold Machine.runOperator at h
  split at h
  · exact failed oc h
  · split at h
    · exact failed oc h
    · obtain ⟨p₁, h₁, h⟩ := Option.bind_eq_some_iff.mp h
      have oc₁ := performAll _ oc h₁
      split at h
      · exact failed oc₁ h
      · obtain ⟨-, rfl⟩ := Prod.mk.inj (Option.some.inj h)
        exact oc₁

theorem raiseStepAfterEvent (oc : OneCounter p) (h : M.raiseStepAfterEvent w p = some p') :
    OneCounter p' := by
  unfold Machine.raiseStepAfterEvent at h
  split at h
  · exact oc.restates (.setState h)
  · exact Option.some.inj h ▸ oc

theorem moveTo (oc : OneCounter p) (op : Op) :
    (Machine.moveTo p p.getActiveOp op).active = [(p.nextArc, op)] ∧
      OneCounter (Machine.moveTo p p.getActiveOp op) := by
  obtain ⟨⟨arc, old⟩, hc, -⟩ := oc.one
  have hactive : (Machine.moveTo p p.getActiveOp op).active = [(p.nextArc, op)] := by
    simp [Machine.moveTo, Process.getActiveOp, hc, Process.eraseArc, Process.setNextOp]
  refine ⟨hactive, ⟨(p.nextArc, op), hactive, ?_⟩, ?_⟩
  · simp [Machine.moveTo, Process.getActiveOp, hc, Process.eraseArc, Process.setNextOp]
  · intro s
    rw [moveTo_states]
    exact oc.once s

end OneCounter

end Operators

/-! ## Steps -/

section Steps

variable {W Op Ty : Type} {M : Machine W Op Ty} {p p' q : Process Op} {w : W}
  {st : State W Op}

namespace Machine

variable (M)

def operated (st : State W Op) : Option (W × Process Op) :=
  (M.runOperator st.world st.process).bind fun (w, p) =>
    (M.raiseStepAfterEvent w p).map fun p => (w, p)

def successor (w : W) (q : Process Op) : Option Op :=
  if q.checkState .error then M.nextOf w q.getActiveOp .error
  else if q.checkState .repeat' then q.getActiveOp.map (·.2)
  else M.resultSuccessor w q q.getActiveOp

def HandlesError (w : W) (q : Process Op) : Prop :=
  q.checkState .dead = false ∧ q.checkState .error = true ∧
    (M.nextOf w q.getActiveOp .error).isSome = true

structure MovesByResult (w : W) (q p' : Process Op) : Prop where
  dies : q.checkState .dead = true ∨ M.successor w q = none → p'.checkState .dead = true
  moves : q.checkState .dead = false → ∀ op, M.successor w q = some op →
    p'.checkState .dead = false ∧ ∃ arc, p'.active = [(arc, op)]
  stays : q.checkState .dead = false → q.checkState .error = false →
    q.checkState .repeat' = true → p'.active = q.active

end Machine

open Machine

theorem Machine.activate_eq (alive : st.finalized = false ∧ st.process.checkState .dead = false) :
    M.activate st = (M.operated st).bind fun (w, q) =>
      (M.errorBranch w q q.getActiveOp).bind fun p =>
        (M.normalBranch w p q.getActiveOp).map fun (p, asleep) =>
          ⟨w, p, st.asleep || asleep, false⟩ := by
  have raise_active : ∀ {w : W} {p q : Process Op}, M.raiseStepAfterEvent w p = some q →
      q.getActiveOp = p.getActiveOp := by
    intro w p q h
    unfold Machine.raiseStepAfterEvent at h
    split at h
    · exact congrArg List.head? (Process.Restates.setState h).active
    · exact Option.some.inj h ▸ rfl
  simp only [activate, alive.1, alive.2, Bool.false_eq_true, if_false, operated, advance,
    Option.bind_eq_bind, Option.bind_assoc]
  refine Option.bind_congr fun ⟨w, p⟩ _ => ?_
  cases h : M.raiseStepAfterEvent w p with
  | none => simp
  | some q =>
    simp only [Option.bind_some, Option.map_some, raise_active h]
    refine Option.bind_congr fun p₁ _ => ?_
    cases M.normalBranch w p₁ p.getActiveOp <;> rfl

variable {asleep : Bool}

theorem normalBranch_moves (oc : OneCounter q) (calm : q.checkState .error = false)
    (h : M.normalBranch w q q.getActiveOp = some (p', asleep)) :
    OneCounter p' ∧ M.MovesByResult w q p' := by
  obtain ⟨⟨arc, op⟩, hc, -⟩ := oc.one
  have hop : q.getActiveOp = some (arc, op) := by simp [Process.getActiveOp, hc]
  unfold normalBranch at h
  split at h
  · next hdead =>
    obtain ⟨rfl, -⟩ := Prod.mk.inj (Option.some.inj h)
    exact ⟨oc, fun _ => hdead, by simp [hdead], fun _ _ _ => rfl⟩
  · next hdead =>
    have hdead : q.checkState .dead = false := by simpa using hdead
    split at h
    · next hrepeat =>
      obtain ⟨rfl, -⟩ := Prod.mk.inj (Option.some.inj h)
      have hs : M.successor w q = some op := by simp [successor, calm, hrepeat, hop]
      refine ⟨oc, by simp [hdead, hs], fun _ op' h' => ⟨hdead, arc, ?_⟩, fun _ _ _ => rfl⟩
      rw [hc, Option.some.inj (hs.symm.trans h')]
    · next hrepeat =>
      have hs : M.successor w q = M.resultSuccessor w q q.getActiveOp := by
        simp only [successor, calm, hrepeat, Bool.false_eq_true, if_false]
      split at h
      · next hnone =>
        rw [Process.setState_dead, Option.map_some] at h
        obtain ⟨rfl, -⟩ := Prod.mk.inj (Option.some.inj h)
        refine ⟨oc.restates (.renew q .dead), fun _ => Process.checkState_renew, ?_, ?_⟩
        · intro _ op' h'
          rw [hs, hnone] at h'
          cases h'
        · exact fun _ _ h' => absurd h' hrepeat
      · next op' hsome =>
        obtain ⟨rfl, -⟩ := Prod.mk.inj (Option.some.inj h)
        obtain ⟨hactive, oc'⟩ := oc.moveTo op'
        rw [hsome] at hs
        refine ⟨oc', by simp [hdead, hs], ?_, fun _ _ h' => absurd h' hrepeat⟩
        intro _ op'' h'
        obtain rfl := Option.some.inj (hs.symm.trans h')
        exact ⟨(checkState_moveTo _ _ _).trans hdead, _, hactive⟩

def Machine.handled (q : Process Op) (op : Op) : Process Op :=
  moveTo (q.uncontrolled.includeIn .then') q.getActiveOp op

theorem handled_spec (oc : OneCounter q) (op : Op) :
    (handled q op).active = [(q.nextArc, op)] ∧ OneCounter (handled q op) ∧
      (handled q op).checkState .dead = q.checkState .dead ∧
      (handled q op).checkState .repeat' = false := by
  obtain ⟨once, hthen, -, hrepeat, -⟩ := oc.once.uncontrolled
  have oc₁ : OneCounter (q.uncontrolled.includeIn .then') := ⟨oc.one, once.includeIn hthen⟩
  obtain ⟨hactive, oc₂⟩ := oc₁.moveTo op
  refine ⟨hactive, oc₂, checkState_moveTo _ _ _, (checkState_moveTo _ _ _).trans ?_⟩
  simp [Process.checkState, Process.includeIn_states, hrepeat]

theorem normalBranch_handled (oc : OneCounter q) (alive : q.checkState .dead = false) {op : Op}
    (h : M.normalBranch w (handled q op) q.getActiveOp = some (p', asleep)) :
    p'.checkState .dead = true ∨ p'.active.length = 2 := by
  obtain ⟨hactive, -, hdead, hrepeat⟩ := handled_spec oc op
  rw [normalBranch, if_neg (by simp [hdead, alive]), if_neg (by simp [hrepeat])] at h
  split at h
  · rw [Process.setState_dead, Option.map_some] at h
    obtain ⟨rfl, -⟩ := Prod.mk.inj (Option.some.inj h)
    exact .inl Process.checkState_renew
  · next op' _ =>
    obtain ⟨rfl, -⟩ := Prod.mk.inj (Option.some.inj h)
    obtain ⟨⟨arc, old⟩, hc, hlt⟩ := oc.one
    have hop : q.getActiveOp = some (arc, old) := by simp [Process.getActiveOp, hc]
    -- The old arc is gone, so the second erasure finds nothing.
    have hne : q.nextArc ≠ arc := Nat.ne_of_gt hlt
    refine .inr ?_
    rw [hop]
    simp [moveTo, Process.setNextOp, Process.eraseArc, hactive, hne]

theorem moves_iff (oc : OneCounter q) (he : M.errorBranch w q q.getActiveOp = some p)
    (hn : M.normalBranch w p q.getActiveOp = some (p', asleep)) :
    (¬M.HandlesError w q → OneCounter p') ∧ (M.MovesByResult w q p' ↔ ¬M.HandlesError w q) := by
  unfold errorBranch at he
  split at he
  · next herror =>
    split at he
    · next op hop =>
      obtain rfl : handled q op = p := Option.some.inj he
      have hs : M.successor w q = some op := by simp [successor, herror, hop]
      obtain ⟨hactive, oc', hdead, -⟩ := handled_spec oc op
      cases alive : q.checkState .dead with
      | true =>
        rw [normalBranch, if_pos (hdead.trans alive)] at hn
        obtain ⟨rfl, -⟩ := Prod.mk.inj (Option.some.inj hn)
        exact ⟨fun _ => oc', fun _ handles => absurd (alive.symm.trans handles.1) (by decide),
          fun _ => ⟨fun _ => hdead.trans alive, by simp [alive], by simp [alive]⟩⟩
      | false =>
        have handles : M.HandlesError w q := ⟨alive, herror, by simp [hop]⟩
        refine ⟨absurd handles, fun moves => ?_, absurd handles⟩
        obtain ⟨alive', arc, hactive'⟩ := moves.moves alive op hs
        rcases normalBranch_handled oc alive hn with dead' | two
        · simp [alive'] at dead'
        · simp [hactive'] at two
    · next hnone =>
      unfold handleError at he
      split at he
      · cases he
      · obtain rfl : q.renew .dead = p := Option.some.inj he
        have hs : M.successor w q = none := by simp [successor, herror, hnone]
        have hdead : (q.renew .dead).checkState .dead = true := Process.checkState_renew
        rw [normalBranch, if_pos hdead] at hn
        obtain ⟨rfl, -⟩ := Prod.mk.inj (Option.some.inj hn)
        refine ⟨fun _ => oc.restates (.renew q .dead), fun _ ⟨_, _, hsome⟩ => ?_, fun _ =>
          ⟨fun _ => hdead, by simp [hs], by simp [herror]⟩⟩
        simp [hnone] at hsome
  · next herror =>
    have calm : q.checkState .error = false := by simpa using herror
    obtain rfl := Option.some.inj he
    obtain ⟨oc', moves⟩ := normalBranch_moves oc calm hn
    exact ⟨fun _ => oc', fun _ handles => absurd (calm.symm.trans handles.2.1) (by decide),
      fun _ => moves⟩

end Steps

/-! ## Runs -/

section Runs

variable {W Op Ty : Type} {M : Machine W Op Ty}

/-- One activation that meets a condition on the world and the operated process,
or something done to the process from outside between two activations. -/
inductive Step (M : Machine W Op Ty) (ok : W → Process Op → Prop) :
    State W Op → State W Op → Prop where
  | activate {st st' : State W Op} :
      (∀ w q, M.operated st = some (w, q) → ok w q) → M.activate st = some st' → Step M ok st st'
  | outside {st : State W Op} {p : Process Op} (w : W) (asleep : Bool) (state : ScpState) :
      st.process.setState state = some p → Step M ok st ⟨w, p, asleep, st.finalized⟩

def State.create (w : W) (init : Op) : State W Op := ⟨w, Process.create init, false, false⟩

theorem OneCounter.operated {st : State W Op} {w : W} {q : Process Op}
    (oc : OneCounter st.process) (h : M.operated st = some (w, q)) : OneCounter q := by
  obtain ⟨⟨w₁, p⟩, hp, h⟩ := Option.bind_eq_some_iff.mp h
  obtain ⟨q₁, hq, heq⟩ := Option.map_eq_some_iff.mp h
  obtain ⟨-, rfl⟩ := Prod.mk.inj heq
  exact (oc.runOperator hp).raiseStepAfterEvent hq

theorem OneCounter.activate {st st' : State W Op} (oc : OneCounter st.process)
    (alive : st.finalized = false ∧ st.process.checkState .dead = false)
    (h : M.activate st = some st') : ∃ w q, M.operated st = some (w, q) ∧
      (¬M.HandlesError w q → OneCounter st'.process) ∧
      (M.MovesByResult w q st'.process ↔ ¬M.HandlesError w q) := by
  rw [Machine.activate_eq alive] at h
  obtain ⟨⟨w, q⟩, hq, h⟩ := Option.bind_eq_some_iff.mp h
  obtain ⟨p, hp, h⟩ := Option.bind_eq_some_iff.mp h
  obtain ⟨⟨p', asleep⟩, hp', rfl⟩ := Option.map_eq_some_iff.mp h
  obtain ⟨keeps, moves⟩ := moves_iff (oc.operated hq) hp hp'
  exact ⟨w, q, hq, keeps, moves⟩

theorem OneCounter.reaches {w : W} {init : Op} {st : State W Op}
    (run : ReflTransGen (Step M fun w q => ¬M.HandlesError w q) (State.create w init) st) :
    OneCounter st.process := by
  induction run with
  | refl => exact OneCounter.create init
  | @tail st st' _ step ih =>
    cases step with
    | outside w asleep state h => exact ih.restates (.setState h)
    | activate calm h =>
      by_cases alive : st.finalized = false ∧ st.process.checkState .dead = false
      · obtain ⟨w, q, hq, keeps, -⟩ := ih.activate alive h
        exact keeps (calm w q hq)
      · unfold Machine.activate at h
        split at h
        · cases h
        · next hf =>
          rw [if_pos (by simpa [hf] using alive)] at h
          obtain rfl := Option.some.inj h
          exact ih

/-- Three operators of one type: 0 calls the program that starts with 1, 1
returns with ELSE, and 0 is then followed by 2. Operator 2 ends in error. -/
def callingMachine : Machine Unit Nat Unit where
  getNextOp _ op attr := if op = 0 ∧ attr = .else' then some 2 else none
  getOpType _ _ := some ()
  interpret _ w p := match p.getActiveOp with
    | some (_, 0) => if p.states .repeat' = 0 ∧ p.states .else' = 0
        then (w, [.pushAndSwitch (some 1), .setState ScpState.repeat'], false)
        else (w, [], false)
    | some (_, 1) => (w, [.processReturn ScpState.else'], false)
    | _ => (w, [], true)
  terminates _ _ := false
  stopOnError := false

def failingMachine : Machine Unit Nat Unit where
  getNextOp _ op attr := if op = 0 ∧ attr = .error then some 1 else none
  getOpType _ _ := some ()
  interpret _ w _ := (w, [], true)
  terminates _ _ := false
  stopOnError := false

end Runs


end ScCore.Scp
