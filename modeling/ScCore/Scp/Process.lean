import ScCore.Types

/-!
# SCP processes

The part of an SCP process that its interpretation step reads and changes: the
components marked `ACTIVE_`, the state sets the process belongs to and the stack
of saved contexts. Programs and operators live in a world of their own; an
operator may change it in any way, but it reaches the process only through
`scp_set_state` and the context stack, since its segment is closed to sessions.
-/

namespace ScCore.Scp

/-- `scp_state`, a mask of state bits. -/
abbrev ScpState := UInt32

namespace ScpState

def then' : ScpState := 1
def else' : ScpState := 2
def repeat' : ScpState := 4
def controlMask : ScpState := then' ||| else' ||| repeat'
def sleep : ScpState := 8
def run : ScpState := 16
def schedMask : ScpState := sleep ||| run
def dead : ScpState := 32
def error : ScpState := 64

end ScpState

/-- The sets `PROCESS_STATE_*`. -/
inductive StateSet where
  | then' | else' | repeat' | error | sleep | run | dead
  deriving DecidableEq, Repr

/-- The attributes `THEN_`, `ELSE_`, `ERROR_` and `GOTO_` of the successors. -/
inductive BranchAttr where
  | then' | else' | error | goto
  deriving DecidableEq, Repr

abbrev ArcId := Nat

/-- `active` are the components marked `ACTIVE_`, each an arc and the operator at
its end, in the order in which a search meets them. A process may occur in a
state set several times. -/
structure Process (Op : Type) where
  active : List (ArcId × Op)
  nextArc : ArcId
  states : StateSet → Nat
  stack : List (Option Op)

namespace Process

variable {Op : Type} (p : Process Op)

/-- What `scp_create_process` makes of the first operator of a program. -/
def create (init : Op) : Process Op := ⟨[(0, init)], 1, fun _ => 0, []⟩

def checkState (s : StateSet) : Bool := p.states s ≠ 0

/-- `sc_set::exclude_from`: one occurrence goes. -/
def excludeFrom (s : StateSet) : Process Op :=
  { p with states := fun t => if t = s then p.states t - 1 else p.states t }

def includeIn (s : StateSet) : Process Op :=
  { p with states := fun t => if t = s then p.states t + 1 else p.states t }

def setControl (t : ScpState) : Option (Process Op) :=
  if t = 0 then some p
  else
    let p := (((p.excludeFrom .then').excludeFrom .else').excludeFrom .repeat').excludeFrom .error
    if t = ScpState.then' then some (p.includeIn .then')
    else if t = ScpState.else' then some (p.includeIn .else')
    else if t = ScpState.repeat' then some (p.includeIn .repeat')
    else none

def setSched (t : ScpState) : Process Op :=
  if t = 0 then p
  else
    let p := (p.excludeFrom .sleep).excludeFrom .run
    p.includeIn (if t = ScpState.sleep then .sleep else .run)

def renew (s : StateSet) : Process Op := (p.excludeFrom s).includeIn s

def setState (state : ScpState) : Option (Process Op) := do
  let p ← p.setControl (state &&& ScpState.controlMask)
  let p := p.setSched (state &&& ScpState.schedMask)
  let p := if state &&& ScpState.dead ≠ 0 then p.renew .dead else p
  some (if state &&& ScpState.error ≠ 0 then p.renew .error else p)

/-- `get_active_op`, with the arc that it returns. -/
def getActiveOp : Option (ArcId × Op) := p.active.head?

/-- `erase_el` of an `ACTIVE_` arc; an arc that is gone is not found. -/
def eraseArc (arc : ArcId) : Process Op :=
  { p with active := p.active.filter fun c => c.1 ≠ arc }

/-- `set_next_op`. The arc to the current operator stays. -/
def setNextOp (op : Op) : Process Op :=
  { p with active := p.active ++ [(p.nextArc, op)], nextArc := p.nextArc + 1 }

/-- `set_end(cur_active_op_arc, op)`. -/
def switchTo (op : Op) : Process Op :=
  { p with active := match p.active with
      | [] => []
      | (arc, _) :: rest => (arc, op) :: rest }

/-- `scp_context_stack::push_and_switch` to a program whose first operator is
`init`. Without one the context stays pushed and its operator is kept. -/
def pushAndSwitch (init : Option Op) : Process Op :=
  let p := { p with stack := p.getActiveOp.map (·.2) :: p.stack }
  match init with
  | none => p
  | some op => p.switchTo op

/-- `scp_context_stack::pop_and_switch`. It asserts that the saved context is complete. -/
def popAndSwitch : Option (Process Op) :=
  match p.stack with
  | some op :: rest => some { p.switchTo op with stack := rest }
  | _ => none

def processReturn (returnState : ScpState) : Option (Process Op) :=
  if p.stack = [] then p.setState ScpState.dead
  else do
    let p ← p.popAndSwitch
    p.setState returnState

end Process

inductive Action (Op : Type) where
  | setState (state : ScpState)
  | pushAndSwitch (init : Option Op)
  | processReturn (returnState : ScpState)

def Action.perform {Op : Type} (p : Process Op) : Action Op → Option (Process Op)
  | .setState state => p.setState state
  | .pushAndSwitch init => some (p.pushAndSwitch init)
  | .processReturn returnState => p.processReturn returnState

def performAll {Op : Type} : List (Action Op) → Process Op → Option (Process Op)
  | [], p => some p
  | a :: rest, p => (a.perform p).bind (performAll rest)

/-- What a step depends on: the successors and the type of an operator, the handler
of a type, with whether it returns an error, and the tracer, which may terminate
the process after a step. `W` is the memory outside the process. -/
structure Machine (W Op Ty : Type) where
  getNextOp : W → Op → BranchAttr → Option Op
  getOpType : W → Op → Option Ty
  interpret : Ty → W → Process Op → W × List (Action Op) × Bool
  terminates : W → Process Op → Bool
  stopOnError : Bool

structure State (W Op : Type) where
  world : W
  process : Process Op
  asleep : Bool
  finalized : Bool

namespace Machine

variable {W Op Ty : Type} (M : Machine W Op Ty)

def runOperator (w : W) (p : Process Op) : Option (W × Process Op) :=
  match p.getActiveOp with
  | none => (p.setState ScpState.error).map fun p => (w, p)
  | some (_, op) =>
      match M.getOpType w op with
      | none => (p.setState ScpState.error).map fun p => (w, p)
      | some type => do
          let (w, actions, failed) := M.interpret type w p
          let p ← performAll actions p
          if failed then (p.setState ScpState.error).map fun p => (w, p)
          else some (w, p)

/-- `raise_step_after_event`, in which the tracer may set the process dead. -/
def raiseStepAfterEvent (w : W) (p : Process Op) : Option (Process Op) :=
  if !p.checkState .repeat' && M.terminates w p then p.setState ScpState.dead else some p

/-- `handle_error`. `none` is the exit of the whole processor. -/
def handleError (p : Process Op) : Option (Process Op) :=
  if M.stopOnError then none else p.setState ScpState.dead

/-- `get_next_op` of the operator that is active. -/
def nextOf (w : W) (active : Option (ArcId × Op)) (attr : BranchAttr) : Option Op :=
  active.bind fun c => M.getNextOp w c.2 attr

def moveTo (p : Process Op) (active : Option (ArcId × Op)) (op : Op) : Process Op :=
  match active with
  | none => p.setNextOp op
  | some (arc, _) => (p.eraseArc arc).setNextOp op

/-- The branch of `activate` for the error state. It does not leave the function. -/
def errorBranch (w : W) (p : Process Op) (active : Option (ArcId × Op)) :
    Option (Process Op) :=
  if p.checkState .error then
    match M.nextOf w active .error with
    | some op => (p.setState ScpState.then').map fun p => moveTo p active op
    | none => M.handleError p
  else some p

/-- The successor for the result, or the `GOTO_` one when that is missing. -/
def resultSuccessor (w : W) (p : Process Op) (active : Option (ArcId × Op)) : Option Op :=
  (M.nextOf w active (if p.checkState .else' then .else' else .then')).or
    (M.nextOf w active .goto)

/-- The rest of `activate`: leave a dead process, keep a repeated operator, move
on otherwise. The result says whether the process is put to sleep. -/
def normalBranch (w : W) (p : Process Op) (active : Option (ArcId × Op)) :
    Option (Process Op × Bool) :=
  if p.checkState .dead then some (p, false)
  else if p.checkState .repeat' then some (p, p.checkState .sleep)
  else
    match M.resultSuccessor w p active with
    | none => (p.setState ScpState.dead).map fun p => (p, false)
    | some op =>
        let p := moveTo p active op
        some (p, p.checkState .sleep)

/-- Everything that `activate` does after the operator has run. The active
operator is looked up once more, since the context may have changed. -/
def advance (w : W) (p : Process Op) : Option (Process Op × Bool) := do
  let active := p.getActiveOp
  let p ← M.raiseStepAfterEvent w p
  let p ← M.errorBranch w p active
  M.normalBranch w p active

/-- `scp_process_activity::activate`. A dead process is finalized. -/
def activate (st : State W Op) : Option (State W Op) :=
  if st.finalized then none
  else if st.process.checkState .dead then some { st with finalized := true }
  else do
    let (w, p) ← M.runOperator st.world st.process
    let (p, asleep) ← M.advance w p
    some ⟨w, p, st.asleep || asleep, false⟩

end Machine

end ScCore.Scp
