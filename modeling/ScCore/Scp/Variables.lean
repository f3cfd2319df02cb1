import ScCore.Lib.DirectMapped
import ScCore.Types
import Mathlib.Data.BitVec

/-!
# Variables of scp-programs

The values of the variables of one environment, as in `scp_var.cpp`: a tuple for
each variable in memory and an `scp_cache` before them. What is modelled of the
memory is the tuples that `CONSTR_ORD_BIN_CONN1` finds.
-/

namespace ScCore.Scp

abbrev Addr := Nat

/-- `centry`, which has a key exactly when it has a value: `value`, `value2` and `value3`. -/
structure CacheEntry where
  value : Addr
  conn : Addr
  valueArc : Addr
  deriving DecidableEq, Repr

structure VarTuple where
  conn : Addr
  var : Addr
  valueArc : Addr
  value : Addr
  deriving DecidableEq, Repr

def VarTuple.entry (t : VarTuple) : CacheEntry := ⟨t.value, t.conn, t.valueArc⟩

structure VarEnv where
  cache : DirectMapped Addr CacheEntry
  /-- How often an entry has been replaced by that of another variable. -/
  replaces : BitVec 32
  /-- In the order in which a search finds them. -/
  tuples : List VarTuple
  /-- The addresses that are handed out next. -/
  fresh : Addr
  /-- `info->vars`. -/
  vars : Addr → Bool

namespace VarEnv

/-- A new environment, after `init_cache`. -/
def new (vars : Addr → Bool) : VarEnv := ⟨DirectMapped.empty, 0, [], 0, vars⟩

variable (hash : Addr → Nat) (e : VarEnv)

def put (var : Addr) (entry : CacheEntry) : VarEnv :=
  { e with
    cache := e.cache.put hash var entry
    replaces := if e.cache.collides hash var then e.replaces + 1 else e.replaces }

def search (var : Addr) : Option CacheEntry :=
  (e.tuples.find? fun t => t.var = var).map VarTuple.entry

/-- `__get_var_value`; nothing stands for `RV_ELSE_GEN`. -/
def getValue (var : Addr) : Option CacheEntry × VarEnv :=
  match e.cache.lookup hash var with
  | some entry => (some entry, e)
  | none =>
      if e.replaces = 0 then (none, e)
      else match e.search var with
        | none => (none, e)
        | some entry => (some entry, e.put hash var entry)

def getVarValue (var : Addr) : Option CacheEntry × VarEnv :=
  if e.vars var then e.getValue hash var else (none, e)

/-- `__set_variable`. -/
def addVariable (var value : Addr) : VarEnv :=
  let t : VarTuple := ⟨e.fresh, var, e.fresh + 1, value⟩
  { e with tuples := e.tuples ++ [t], fresh := e.fresh + 2 }.put hash var t.entry

/-- `set_end` of the arc from a tuple to its value. -/
def setEnd (valueArc value : Addr) : VarEnv :=
  { e with tuples := e.tuples.map fun t =>
      if t.valueArc = valueArc then { t with value := value } else t }

def setVariable (var value : Addr) : VarEnv :=
  match e.getVarValue hash var with
  | (none, e) => e.addVariable hash var value
  | (some entry, e) =>
      (e.setEnd entry.valueArc value).put hash var ⟨value, entry.conn, entry.valueArc⟩

def clearVariable (var : Addr) : VarEnv :=
  match e.getValue hash var with
  | (none, e) => e
  | (some entry, e) =>
      { e with
        cache := e.cache.clear hash var
        tuples := e.tuples.filter fun t => t.conn ≠ entry.conn }

def clearThisValueVariables (value : Addr) : VarEnv :=
  { e with tuples := e.tuples.filter fun t => t.value ≠ value }

def erase (a : Addr) : VarEnv :=
  { e with
    cache := e.cache.drop fun entry => entry.value = a
    tuples := e.tuples.filter fun t => t.value ≠ a ∧ t.var ≠ a
    vars := fun b => b ≠ a && e.vars b }

/-- One turn of `scp_context_stack::return_values`, for what the callee has. Nothing
stands for a `BUG_ERROR`. -/
def returnValue (callerVar : Addr) : Option Addr → Option VarEnv
  | none => some (e.clearVariable hash callerVar)
  | some value =>
      match (e.addVariable hash callerVar value).getValue hash callerVar with
      | (none, _) => none
      | (some _, e) => some e

/-- One turn of `return_values` between processes. -/
def returnToFather (fatherVar : Addr) : Option Addr → Option VarEnv
  | none => some (e.clearVariable hash fatherVar)
  | some value =>
      match (e.setVariable hash fatherVar value).getVarValue hash fatherVar with
      | (none, _) => none
      | (some _, e) => some e

end VarEnv

inductive VarOp where
  | get (var : Addr)
  | set (var value : Addr)
  | add (var value : Addr)
  | clear (var : Addr)
  | clearThisValue (value : Addr)
  | erase (a : Addr)
  | returnValue (callerVar : Addr) (value : Option Addr)
  | returnToFather (fatherVar : Addr) (value : Option Addr)
  deriving DecidableEq, Repr

def VarOp.exec (hash : Addr → Nat) (e : VarEnv) : VarOp → Option VarEnv
  | .get var => some (e.getVarValue hash var).2
  | .set var value => some (e.setVariable hash var value)
  | .add var value => some (e.addVariable hash var value)
  | .clear var => some (e.clearVariable hash var)
  | .clearThisValue value => some (e.clearThisValueVariables value)
  | .erase a => some (e.erase a)
  | .returnValue var value => e.returnValue hash var value
  | .returnToFather var value => e.returnToFather hash var value

/-- The values last assigned that have neither been cleared nor erased. -/
abbrev Values := Addr → Option Addr

namespace Values

def assign (s : Values) (var : Addr) (value : Option Addr) : Values := Function.update s var value

def forget (s : Values) (value : Addr) : Values := fun var => (s var).filter fun v => v ≠ value

end Values

def VarOp.apply (s : Values) : VarOp → Values
  | .get _ => s
  | .set var value | .add var value => s.assign var (some value)
  | .clear var => s.assign var none
  | .clearThisValue value => s.forget value
  | .erase a => s.forget a
  | .returnValue var value | .returnToFather var value => s.assign var value

end ScCore.Scp
