import ScCore.Scp.ArcMemory
import Mathlib.Data.List.DropRight

/-!
# Calls of programs

`scp_call_program`: the context of the caller is pushed and that of the called program
made current, then the parameters are processed, all in a transaction that is rolled back
unless the call succeeds. The texts of programs do not change.
-/

namespace ScCore.Scp

/-- An arc to a parameter with its number attributes, and whether it is in `IN_` and in
`OUT_`. -/
structure PrmArc where
  numbers : List Nat
  fin : Addr
  input : Bool
  output : Bool
  deriving DecidableEq, Repr

/-- `sc_tup::unpack_ord` of a tuple of parameters: the arcs by their numbers, from 0 on.
Nothing stands for a write past the end of `result`. -/
def unpackOrd (tuple : List PrmArc) : Option (Except ScpError (List (Option PrmArc))) :=
  let rec fill : List (PrmArc × Nat) → List (Option PrmArc) →
      Option (Except ScpError (List (Option PrmArc)))
    | [], result => some (.ok (result.rdropWhile Option.isNone))
    | (prm, number) :: rest, result =>
        match result[number - 1]? with
        | none => none
        | some (some _) => some (.error .notUnique)
        | some none => fill rest (result.set (number - 1) (some prm))
  fill (tuple.flatMap fun prm => prm.numbers.map fun number => (prm, number))
    (List.replicate tuple.length none)

structure ProgramTexts where
  /-- Is in `SCP_PROGRAM`. -/
  isProgram : Addr → Bool
  /-- The signs of the segments of the elements of `CONST_`. -/
  consts : Addr → Option (List Addr)
  /-- `get_init_op`. -/
  initOp : Addr → Option Addr
  /-- The arcs of `PRM_`. -/
  prms : Addr → Option (List PrmArc)
  /-- Is in `VAR_`. -/
  vars : Addr → Addr → Bool

variable (hash : Addr → Nat) (texts : ProgramTexts) (opened : Addr → Bool)

/-- A turn of the loop of `prepare_program_const_segs`. -/
def includeSeg (constSegs : Addr) (t : Transacted) (seg : Addr) : Transacted :=
  if t.memory.links.any fun l => l.beg = constSegs ∧ l.fin = seg then t
  else (t.gen constSegs seg none).2

/-- `prepare_program_const_segs`; no set stands for a program without constants. -/
def prepareProgramConstSegs (prg : Addr) (t : Transacted) : Option Addr × Transacted :=
  match t.memory.tupAt prg .constSegments with
  | some l => (some l.fin, t)
  | none =>
      match texts.consts prg with
      | none => (none, t.setError (.noConstants prg))
      | some segs =>
          let (constSegs, t) := t.createEl
          let (_, t) := t.gen prg constSegs (some .constSegments)
          (some constSegs, segs.foldl (includeSeg constSegs) t)

/-- `scp_context_stack`, with the arcs by which the process has its components. -/
structure ContextArcs where
  prg : Addr
  prgArc : Addr
  varValue : Addr
  varValueArc : Addr
  activeOp : Addr
  activeOpArc : Addr
  outBinding : Option Addr
  outBindingArc : Option Addr
  prevCtx : Option Link
  deriving DecidableEq, Repr

namespace ContextArcs

/-- `fetch_context`; nothing stands for a process that lacks a component. -/
def fetchContext (m : ArcMemory) (process : Addr) : Option ContextArcs := do
  let prg ← m.tupAt process .program
  let varValue ← m.tupAt process .varValue
  let active ← m.tupAt process .active
  let binding := m.tupAt process .outputPrmBinding
  some {
    prg := prg.fin
    prgArc := prg.arc
    varValue := varValue.fin
    varValueArc := varValue.arc
    activeOp := active.fin
    activeOpArc := active.arc
    outBinding := binding.map (·.fin)
    outBindingArc := binding.map (·.arc)
    prevCtx := m.tupAt process .processStack }

variable (c : ContextArcs)

/-- The binding of the current context, in `create_context`. -/
def ensureBinding (t : Transacted) : Addr × Transacted :=
  match c.outBinding with
  | some binding => (binding, t)
  | none => t.createEl

/-- `create_context`: the context and its binding. -/
def createContext (t : Transacted) : Addr × Addr × Transacted :=
  let (ctx, t) := t.createEl
  let (_, t) := t.gen ctx c.prg (some .program)
  let (_, t) := t.gen ctx c.varValue (some .varValue)
  let (_, t) := t.gen ctx c.activeOp (some .active)
  let (binding, t) := c.ensureBinding t
  let (_, t) := t.gen ctx binding (some .outputPrmBinding)
  (ctx, binding, t)

/-- `sc_list::create`. -/
def createList (val : Addr) (t : Transacted) : Addr × Transacted :=
  let (l, t) := t.createEl
  let (_, t) := t.gen l val (some .listValue)
  (l, t)

/-- The new top of the stack. The list has no next one yet that `sc_list::set_next` could
erase. -/
def linkStack (process ctxList : Addr) (t : Transacted) : Option Transacted :=
  match c.prevCtx with
  | none => some (t.gen process ctxList (some .processStack)).2
  | some prev => (t.gen ctxList prev.fin (some .listNext)).2.setEnd prev.arc ctxList

def bindOutput (process outBinding : Addr) (t : Transacted) : Option Transacted :=
  match c.outBindingArc with
  | some arc => t.setEnd arc outBinding
  | none => some (t.gen process outBinding (some .outputPrmBinding)).2

/-- The environment, after `init_cache`. -/
def createVarValue (t : Transacted) : Addr × Transacted :=
  let (varValue, t) := t.createEl
  let caches := Function.update t.memory.caches varValue (some ⟨DirectMapped.empty, 0⟩)
  (varValue, { t with memory := { t.memory with caches := caches } })

/-- The rest of `push_and_switch`, from where the program has an operator: the environment
and the binding. -/
def enter (process initOp : Addr) (t : Transacted) : Option (Addr × Addr × Transacted) := do
  let t ← t.setEnd c.activeOpArc initOp
  let (varValue, t) := createVarValue t
  let t ← t.setEnd c.varValueArc varValue
  let (outBinding, t) := t.createEl
  let t ← c.bindOutput process outBinding t
  some (varValue, outBinding, t)

/-- `push_and_switch`: the environment and the binding that are current then. Whether it
has returned `RV_OK` nobody asks. -/
def pushAndSwitch (process newPrg : Addr) (t : Transacted) : Option (Addr × Addr × Transacted) := do
  let (ctx, binding, t) := c.createContext t
  let (ctxList, t) := createList ctx t
  let t ← c.linkStack process ctxList t
  let t ← t.setEnd c.prgArc newPrg
  match texts.initOp newPrg with
  | none => some (c.varValue, binding, t.setError (.noInitOp newPrg))
  | some initOp => c.enter process initOp t

end ContextArcs

structure ScpParamsProcessor where
  calledVarValue : Addr
  outBinding : Addr
  deriving DecidableEq, Repr

namespace ScpParamsProcessor

variable (p : ScpParamsProcessor)

def processOutput (called : PrmArc) (passedPrm : Addr) (t : Transacted) : Transacted :=
  t.addOrdTuple p.outBinding passedPrm called.fin

def processInput (called : PrmArc) (value : Addr) (t : Transacted) : Option Transacted := do
  let m ← t.memory.setVariable hash p.calledVarValue called.fin value
  some { t with memory := m }

end ScpParamsProcessor

structure Caller where
  callerPrg : Addr
  callerVarValue : Addr
  calledPrg : Addr
  deriving DecidableEq, Repr

namespace Caller

variable (k : Caller)

/-- A turn of the loop of `process_program_params`, for an output parameter. -/
def turnOutput (p : ScpParamsProcessor) (index : Nat) (called : PrmArc) (passedPrm : Addr)
    (t : Transacted) : Option ScpError × Transacted :=
  if called.output then
    if texts.vars k.callerPrg passedPrm then (none, p.processOutput called passedPrm t)
    else (some (.notVariable index called.fin k.calledPrg passedPrm), t)
  else (none, t)

def passedValue (passedPrm : Addr) (t : Transacted) : Option (Option Addr × Transacted) :=
  if texts.vars k.callerPrg passedPrm then do
    let (value, m) ← t.memory.getVarValue hash k.callerVarValue passedPrm
    some (value, { t with memory := m })
  else some (some passedPrm, t)

def turnInput (p : ScpParamsProcessor) (index : Nat) (called : PrmArc) (passedPrm : Addr)
    (t : Transacted) : Option (Option ScpError × Transacted) :=
  if called.input then do
    let (value, t) ← k.passedValue hash texts passedPrm t
    match value with
    | none => some (some (.noValue passedPrm), t)
    | some value =>
        if opened value then (p.processInput hash called value t).map fun t => (none, t)
        else some (some (.segmentClosed value index k.calledPrg), t)
  else some (none, t)

def turn (p : ScpParamsProcessor) (index : Nat) (called : PrmArc) (passedPrm : Addr)
    (t : Transacted) : Option (Option ScpError × Transacted) :=
  match k.turnOutput texts p index called passedPrm t with
  | (some error, t) => some (some error, t)
  | (none, t) => k.turnInput hash texts opened p index called passedPrm t

/-- The loop of `process_program_params`. Nothing stands for `get_end` of no arc. -/
def processPrms (p : ScpParamsProcessor) :
    Nat → List (Option PrmArc × Option Addr) → Transacted → Option (Option ScpError × Transacted)
  | _, [], t => some (none, t)
  | _, (none, _) :: _, _ => none
  | index, (some _, none) :: rest, t => processPrms p (index + 1) rest t
  | index, (some called, some passedPrm) :: rest, t => do
      let (error, t) ← k.turn hash texts opened p index called passedPrm t
      match error with
      | some error => some (some error, t)
      | none => processPrms p (index + 1) rest t

end Caller

/-- What `process_program_params` checks before its loop, which then has the parameters of the
declaration with the passed ones. -/
def matchPrms (calledPrg : Addr) (passedPrms : List (Option Addr)) :
    Option (Except ScpError (List (Option PrmArc × Option Addr))) :=
  match ((texts.prms calledPrg).map unpackOrd).getD (some (.ok [])) with
  | none => none
  | some (.error error) => some (.error error)
  | some (.ok calledPrms) =>
      if calledPrms = [] ∧ passedPrms ≠ [] then some (.error (.noParameters calledPrg))
      else if passedPrms.length ≠ calledPrms.length then
        some (.error (.parameterCount calledPrg calledPrms.length passedPrms.length))
      else some (.ok (calledPrms.zip passedPrms))

/-- `process_program_params`, with the error that it sets. -/
def processProgramParams (k : Caller) (passedPrms : List (Option Addr)) (p : ScpParamsProcessor)
    (t : Transacted) : Option (Option ScpError × Transacted) := do
  let prms ← matchPrms texts k.calledPrg passedPrms
  match prms with
  | .error error => some (some error, t)
  | .ok prms => k.processPrms hash texts opened p 0 prms t

/-- `scp_call_program` of a process, and whether it returns `RV_OK`. The passed parameters
are the ends of the arcs that the operand has by their numbers. -/
def scpCallProgram (process prg : Addr) (prms : List (Option Addr)) (m : ArcMemory) :
    Option (Bool × ArcMemory) :=
  if !texts.isProgram prg then some (false, m.setError (.notProgram prg))
  else
    match prepareProgramConstSegs texts prg (.start m) with
    | (none, t) => some (false, t.rollback)
    | (some _, t) => do
        let c ← ContextArcs.fetchContext t.memory process
        let (varValue, outBinding, t) ← c.pushAndSwitch texts process prg t
        let (error, t) ← processProgramParams hash texts opened ⟨c.prg, c.varValue, prg⟩ prms
          ⟨varValue, outBinding⟩ t
        match error with
        | some error => some (false, (t.setError error).rollback)
        | none => some (true, t.memory)

end ScCore.Scp
