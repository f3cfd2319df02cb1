import ScCore.Scp.Variables

/-!
# The arcs of processes

What `scp_core.cpp` keeps in memory for a process is tuples: arcs, most of them with an
attribute. All of them are constant and positive. A transaction logs the ends that it
sets and the elements that it creates, and takes them back unless it is committed.
-/

namespace ScCore.Scp

inductive Attribute where
  | program
  | varValue
  | active
  | outputPrmBinding
  | processStack
  | listValue
  | listNext
  | n1
  | n2
  | constSegments
  deriving DecidableEq, Repr

structure Link where
  arc : Addr
  beg : Addr
  fin : Addr
  attr : Option Attribute
  deriving DecidableEq, Repr

structure ScpCache where
  data : DirectMapped Addr CacheEntry
  replaces : BitVec 32

/-- What is written to the content of the `ERROR_` of a process. -/
inductive ScpError where
  /-- "… isn't scp-program". -/
  | notProgram (prg : Addr)
  /-- "Program "…" hasn't constants". -/
  | noConstants (prg : Addr)
  /-- "Program '…' hasn't init operator". -/
  | noInitOp (prg : Addr)
  /-- "Components of parameters tuple must be unique." -/
  | notUnique
  /-- "External program "…" doesn't have parameters." -/
  | noParameters (prg : Addr)
  /-- "External program "…" expected … parameters, but called with … parameters." -/
  | parameterCount (prg : Addr) (expected passed : Nat)
  /-- "Parameter …_ "…" of program "…" is output, but passed parameter "…" isn't variable." -/
  | notVariable (index : Nat) (calledPrm prg passedPrm : Addr)
  /-- "Passed as input parameter variable "…" doesn't have value." -/
  | noValue (passedPrm : Addr)
  /-- "Segment "…" of parameter …_ value from program "…" isn't opened". -/
  | segmentClosed (value : Addr) (index : Nat) (prg : Addr)
  deriving DecidableEq, Repr

structure ArcMemory where
  /-- In the order in which a search finds them. -/
  links : List Link
  /-- `cache_map`. -/
  caches : Addr → Option ScpCache
  /-- What the process has under `ERROR_`. -/
  error : Option ScpError
  /-- The address that is handed out next. -/
  fresh : Addr

def setEnds (links : List Link) (arc fin : Addr) : List Link :=
  links.map fun l => if l.arc = arc then { l with fin := fin } else l

/-- What dies with elements, as far as `n` rounds lead: the arcs at them, the arcs at
these, and so on. -/
def doomed (links : List Link) : Nat → List Addr → List Addr
  | 0, dead => dead
  | n + 1, dead =>
      doomed links n (dead ++ (links.filter fun l => l.beg ∈ dead ∨ l.fin ∈ dead).map (·.arc))

namespace ArcMemory

variable (m : ArcMemory)

def createEl : Addr × ArcMemory := (m.fresh, { m with fresh := m.fresh + 1 })

/-- `gen3_f_a_f` and `gen5_f_a_f_a_f`: the first arc. -/
def gen (beg fin : Addr) (attr : Option Attribute) : Addr × ArcMemory :=
  (m.fresh, { m with links := m.links ++ [⟨m.fresh, beg, fin, attr⟩], fresh := m.fresh + 1 })

def getEnd (arc : Addr) : Option Addr := (m.links.find? fun l => l.arc = arc).map (·.fin)

def setEnd (arc fin : Addr) : ArcMemory := { m with links := setEnds m.links arc fin }

/-- `sc_tup::at`, which finds the arc too. -/
def tupAt (tuple : Addr) (attr : Attribute) : Option Link :=
  m.links.find? fun l => l.beg = tuple ∧ l.attr = some attr

/-- `erase_el`, with the observers by which caches drop the values that die. -/
def eraseEl (a : Addr) : ArcMemory :=
  let dead := doomed m.links m.links.length [a]
  { m with
    links := m.links.filter fun l => l.arc ∉ dead
    caches := fun v => (m.caches v).map fun c =>
      { c with data := c.data.drop fun entry => entry.value ∈ dead } }

def setError (error : ScpError) : ArcMemory := { m with error := some error }

/-- `sc_rel::add_ord_tuple`: the tuple and the arc to its second component. -/
def addOrdTuple (rel v1 v2 : Addr) : Addr × Addr × ArcMemory :=
  let (tuple, m) := m.createEl
  let (_, m) := m.gen rel tuple none
  let (_, m) := m.gen tuple v1 (some .n1)
  let (av2, m) := m.gen tuple v2 (some .n2)
  (tuple, av2, m)

/-- The tuples of an environment, for `CONSTR_ORD_BIN_CONN1`. -/
def tuples (varValue : Addr) : List VarTuple := do
  let conn ← m.links.filter fun l => l.beg = varValue
  let var ← m.links.filter fun l => l.beg = conn.fin ∧ l.attr = some .n1
  let value ← m.links.filter fun l => l.beg = conn.fin ∧ l.attr = some .n2
  [⟨conn.fin, var.fin, value.arc, value.fin⟩]

/-- An environment, all of whose elements may be variables; nothing stands for `SC_ABORT`
in `find_cache`. -/
def env (varValue : Addr) : Option VarEnv :=
  (m.caches varValue).map fun c => ⟨c.data, c.replaces, m.tuples varValue, m.fresh, fun _ => true⟩

def setCache (varValue : Addr) (e : VarEnv) : ArcMemory :=
  { m with caches := Function.update m.caches varValue (some ⟨e.cache, e.replaces⟩) }

variable (hash : Addr → Nat)

def getVarValue (varValue var : Addr) : Option (Option Addr × ArcMemory) := do
  let e ← m.env varValue
  let (entry, e) := e.getValue hash var
  some (entry.map (·.value), m.setCache varValue e)

def setVariable (varValue var value : Addr) : Option ArcMemory := do
  let (conn, valueArc, m) := m.addOrdTuple varValue var value
  let e ← m.env varValue
  some (m.setCache varValue (e.put hash var ⟨value, conn, valueArc⟩))

end ArcMemory

/-- A `pm_transaction` and the memory of its host. -/
structure Transacted where
  memory : ArcMemory
  origEnd : List (Addr × Addr)
  genedElems : List Addr

namespace Transacted

variable (t : Transacted)

def start (m : ArcMemory) : Transacted := ⟨m, [], []⟩

def setError (error : ScpError) : Transacted := { t with memory := t.memory.setError error }

def createEl : Addr × Transacted :=
  let (a, m) := t.memory.createEl
  (a, { t with memory := m, genedElems := t.genedElems ++ [a] })

/-- The proxy's `gen3_f_a_f` and `gen5_f_a_f_a_f`, which the host answers. -/
def gen (beg fin : Addr) (attr : Option Attribute) : Addr × Transacted :=
  let (arc, m) := t.memory.gen beg fin attr
  (arc, { t with memory := m })

def setEnd (arc fin : Addr) : Option Transacted := do
  let old ← t.memory.getEnd arc
  some { t with memory := t.memory.setEnd arc fin, origEnd := t.origEnd ++ [(arc, old)] }

/-- `sc_rel::add_ord_tuple` in a transaction. -/
def addOrdTuple (rel v1 v2 : Addr) : Transacted :=
  let (tuple, t) := t.createEl
  let (_, t) := t.gen rel tuple none
  let (_, t) := t.gen tuple v1 (some .n1)
  let (_, t) := t.gen tuple v2 (some .n2)
  t

def rollback : ArcMemory :=
  let m := t.origEnd.reverse.foldl (fun m (arc, old) => m.setEnd arc old) t.memory
  t.genedElems.reverse.foldl ArcMemory.eraseEl m

end Transacted

end ScCore.Scp
