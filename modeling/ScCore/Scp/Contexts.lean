import ScCore.Scp.Variables

/-!
# Contexts of a process

The stack of execution contexts, as in `scp_context_stack`. The current context is
the tuple that is the process itself; the earlier ones are in an `sc_list` of which
the process holds the top. What is modelled of the memory is these tuples, the lists,
the variable environments and the output bindings.
-/

namespace ScCore.Scp

/-- A tuple with `PROGRAM_`, `VAR_VALUE_`, `ACTIVE_` and `OUTPUT_PRM_BINDING_`. -/
structure Context where
  program : Addr
  varValue : Addr
  active : Addr
  outputPrmBinding : Option Addr
  deriving DecidableEq, Repr

/-- `sc_list`. -/
structure ListCell where
  value : Addr
  next : Option Addr
  deriving DecidableEq, Repr

structure Programs where
  /-- `get_init_op`. -/
  initOp : Addr → Option Addr
  vars : Addr → Addr → Bool

structure ProcessMemory where
  /-- The process as a tuple. -/
  process : Context
  /-- What is in the process under `processStack_`. -/
  processStack : Option Addr
  lists : Addr → Option ListCell
  contexts : Addr → Option Context
  envs : Addr → Option VarEnv
  /-- The tuples of a binding: a variable of the caller and a parameter. -/
  bindings : Addr → Option (List (Addr × Addr))
  /-- The address that `create_el` hands out next. -/
  fresh : Addr

/-- The fields of `scp_context_stack`. What its arcs are used for is `set_end` of the
components of the process. -/
structure ContextStack where
  prg : Addr
  varValue : Addr
  activeOp : Addr
  outBinding : Option Addr
  prevCtxList : Option Addr
  deriving DecidableEq, Repr

namespace ProcessMemory

variable (m : ProcessMemory)

def fetchContext : ContextStack :=
  ⟨m.process.program, m.process.varValue, m.process.active, m.process.outputPrmBinding,
    m.processStack⟩

def setEnv (varValue : Addr) (e : VarEnv) : ProcessMemory :=
  { m with envs := Function.update m.envs varValue (some e) }

/-- `create_el` for a binding. -/
def createBinding : Addr × ProcessMemory :=
  (m.fresh, { m with
    bindings := Function.update m.bindings m.fresh (some [])
    fresh := m.fresh + 1 })

end ProcessMemory

namespace ContextStack

variable (c : ContextStack)

def isEmpty : Bool := c.prevCtxList.isNone

/-- The binding of the current context, in `create_context`. -/
def ensureBinding (m : ProcessMemory) : Addr × ProcessMemory :=
  match c.outBinding with
  | some binding => (binding, m)
  | none => m.createBinding

def createContext (m : ProcessMemory) : Addr × ContextStack × ProcessMemory :=
  let ctx := m.fresh
  let (binding, m) := c.ensureBinding { m with fresh := m.fresh + 1 }
  let context : Context := ⟨c.prg, c.varValue, c.activeOp, some binding⟩
  (ctx, { c with outBinding := some binding },
    { m with contexts := Function.update m.contexts ctx (some context) })

/-- `push_and_switch`, and whether it returns `RV_OK`. The top of the stack that the
object knows remains the old one. -/
def pushAndSwitch (programs : Programs) (newPrg : Addr) (m : ProcessMemory) :
    Bool × ContextStack × ProcessMemory :=
  let (ctx, c, m) := c.createContext m
  let ctxList := m.fresh
  let m := { m with
    lists := Function.update m.lists ctxList (some ⟨ctx, c.prevCtxList⟩)
    processStack := some ctxList
    process := { m.process with program := newPrg }
    fresh := m.fresh + 1 }
  match programs.initOp newPrg with
  | none => (false, { c with prg := newPrg }, m)
  | some initOp =>
      let varValue := m.fresh
      let (outBinding, m) := { m with
        envs := Function.update m.envs varValue (some (VarEnv.new (programs.vars newPrg)))
        fresh := m.fresh + 1 : ProcessMemory }.createBinding
      (true, { c with
          prg := newPrg
          varValue := varValue
          activeOp := initOp
          outBinding := some outBinding },
        { m with process := ⟨newPrg, varValue, initOp, some outBinding⟩ })

end ContextStack

namespace ProcessMemory

variable (hash : Addr → Nat)

/-- The loop of `return_values` over the tuples of the binding. Nothing stands for a
`BUG_ERROR`. -/
def returnValues (varValue prevVarValue : Addr) :
    List (Addr × Addr) → ProcessMemory → Option ProcessMemory
  | [], m => some m
  | (callerVar, var) :: conns, m => do
      let e ← m.envs varValue
      let (found, e) := e.getValue hash var
      let m := m.setEnv varValue e
      let prev ← m.envs prevVarValue
      let prev ← prev.returnValue hash callerVar (found.map (·.value))
      returnValues varValue prevVarValue conns (m.setEnv prevVarValue prev)

end ProcessMemory

/-- `pop_and_switch`. Nothing stands for an assertion that fails. -/
def ContextStack.popAndSwitch (hash : Addr → Nat) (c : ContextStack) (m : ProcessMemory) :
    Option ProcessMemory := do
  let curCtxList ← c.prevCtxList
  let cell ← m.lists curCtxList
  let prev ← m.contexts cell.value
  let prevOutBinding ← prev.outputPrmBinding
  let outBinding ← c.outBinding
  let conns ← m.bindings outBinding
  let m ← m.returnValues hash c.varValue prev.varValue conns
  some { m with
    process := ⟨prev.program, prev.varValue, prev.active, some prevOutBinding⟩
    envs := Function.update m.envs c.varValue none
    bindings := Function.update m.bindings outBinding none
    processStack := cell.next
    lists := Function.update m.lists curCtxList none }

namespace ProcessMemory

variable (hash : Addr → Nat) (m : ProcessMemory)

/-- The push of `scp_call_program`, which fetches the stack first. -/
def call (programs : Programs) (prg : Addr) : Bool × ProcessMemory :=
  let (ok, _, m) := m.fetchContext.pushAndSwitch programs prg m
  (ok, m)

/-- The pop of `scp_process_return`, which fetches the stack first. -/
def processReturn : Option ProcessMemory := m.fetchContext.popAndSwitch hash m

def start (programs : Programs) (prg initOp : Addr) (binding : Option (List (Addr × Addr))) :
    ProcessMemory where
  process := ⟨prg, 0, initOp, binding.map fun _ => 1⟩
  processStack := none
  lists _ := none
  contexts _ := none
  envs := Function.update (fun _ => none) 0 (some (VarEnv.new (programs.vars prg)))
  bindings := Function.update (fun _ => none) 1 binding
  fresh := 2

end ProcessMemory

inductive ProcessOp where
  /-- `set_next_op`, the arc to the last operator having been erased. -/
  | setNextOp (op : Addr)
  | var (op : VarOp)
  /-- `process_output`. -/
  | bind (callerVar prm : Addr)
  /-- An element dies that is in no context and no binding. -/
  | erase (a : Addr)
  deriving DecidableEq, Repr

def ProcessOp.exec (hash : Addr → Nat) (m : ProcessMemory) : ProcessOp → Option ProcessMemory
  | .setNextOp op => some { m with process := { m.process with active := op } }
  | .var op => do
      let e ← m.envs m.process.varValue
      let e ← op.exec hash e
      some (m.setEnv m.process.varValue e)
  | .bind callerVar prm => do
      let binding ← m.process.outputPrmBinding
      let conns ← m.bindings binding
      some { m with
        bindings := Function.update m.bindings binding (some (conns ++ [(callerVar, prm)])) }
  | .erase a => some { m with envs := fun varValue => (m.envs varValue).map (·.erase a) }

def ProcessOp.gone : ProcessOp → List Addr
  | .erase a => [a]
  | _ => []

end ScCore.Scp
