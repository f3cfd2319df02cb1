import ScCore.Search.Deconstruct
import Mathlib.Data.List.Range

/-!
# Registering constraints

`sc_constraint_register` looks up what the commands of a deconstruct program
name, and puts the programs of other constraints in the place of the commands
that ask for them. Only the constraints of all arcs of an element are left.
-/

namespace ScCore.Search

/-- What `registry` holds: a constraint with its program, a filter or a function. -/
inductive Holder where
  | constr (name : String) (deconstruct : Option Deconstruct)
  | filter (name : String)
  | func (name : String)
  deriving DecidableEq, Repr

def Holder.name : Holder → String
  | constr name _ | filter name | func name => name

/-- `registry`, and `my_hash` over it. The id of a holder is its place. -/
abbrev Registry := List Holder

namespace Registry

def findHolderIdByName (reg : Registry) (name : String) : Option Nat :=
  reg.findIdx? fun holder => holder.name = name

/-- `registry[id].u.constr->deconstruct`. -/
def deconstruct (reg : Registry) (id : Nat) : Option Deconstruct :=
  match reg[id]? with
  | some (.constr _ deconstruct) => deconstruct
  | _ => none

end Registry

def realize (reg : Registry) (dec : Deconstruct) : Option Deconstruct := do
  let commands ← dec.commands.mapM fun item =>
    if item.type = .ret then some item
    else (reg.findHolderIdByName item.name).map fun id => { item with id }
  some { dec with commands }

/-- `regmap`: the caller's registers for those of the callee, or -1. -/
abbrev RegMap := Nat → Option Nat

def RegMap.mapOutputs : RegMap → List (Nat × Option Nat) → RegMap
  | regmap, [] => regmap
  | regmap, (_, none) :: rest => mapOutputs regmap rest
  | regmap, (r, some out) :: rest => mapOutputs (Function.update regmap r (some out)) rest

/-- Registers that have no place yet get new ones, from `next` on. -/
def RegMap.allocate : RegMap → Nat → List Nat → RegMap × Nat
  | regmap, next, [] => (regmap, next)
  | regmap, next, r :: rest =>
      if (regmap r).isSome then allocate regmap next rest
      else allocate (Function.update regmap r (some next)) (next + 1) rest

/-- The map with which a callee is put in the place of the command `par`, and the first
register that is not used then. -/
def regMap (next : Nat) (par : PrgItem) (idec : Deconstruct) (ret : PrgItem) : RegMap × Nat :=
  let inputs : RegMap := fun i => par.paramsIn[i]?
  (inputs.mapOutputs (ret.paramsIn.zip par.paramsOut)).allocate next
    (List.range' idec.inputCnt idec.regCnt)

def PrgItem.rename (regmap : RegMap) (item : PrgItem) : Option PrgItem := do
  let paramsIn ← item.paramsIn.mapM regmap
  let paramsOut ← item.paramsOut.mapM fun
    | none => some none
    | some r => (regmap r).map some
  some { item with paramsIn, paramsOut }

def PrgItem.inlines (item : PrgItem) : Bool :=
  item.type = .constr && item.name ≠ "all_input" && item.name ≠ "all_output"

/-- `MAX_REG_CNT` and `MAX_COMMANDS_LEN`. -/
def maxRegCnt : Nat := 512
def maxCommandsLen : Nat := 4096

def appendItem (reg : Registry) (inline : Deconstruct → Deconstruct → Option Deconstruct)
    (top : Deconstruct) (item : PrgItem) : Option Deconstruct :=
  let top := { top with commands := top.commands ++ [item] }
  if item.inlines then (reg.deconstruct item.id).bind (inline top) else some top

/-- `__inline_dec`: the last command of `top` gives way to the commands of the program that
it asks for. -/
def inlineDec (reg : Registry) : Nat → Deconstruct → Deconstruct → Option Deconstruct
  | 0, _, _ => none
  | fuel + 1, top, idec => do
      let par ← top.commands.getLast?
      let ret ← idec.commands.getLast?
      if idec.regCnt + idec.inputCnt > maxRegCnt then none
      else
        let (regmap, next) := regMap (top.regCnt + top.inputCnt) par idec ret
        idec.commands.dropLast.foldlM
          (fun top item => (item.rename regmap).bind fun item =>
            if top.commands.length ≥ maxCommandsLen then none
            else appendItem reg (inlineDec reg fuel) top item)
          { top with regCnt := next - top.inputCnt, commands := top.commands.dropLast }

/-- `inline_deconstruct`. A program in the registry asks for no program any more. -/
def inlineDeconstruct (reg : Registry) (idec : Deconstruct) : Option Deconstruct :=
  idec.commands.foldlM (appendItem reg (inlineDec reg (reg.length + 1)))
    ⟨idec.inputCnt, idec.regCnt, []⟩

namespace Registry

def register (reg : Registry) (name : String) (deconstruct : Option Deconstruct) :
    Option Registry := do
  let inlined ← match deconstruct with
    | some dec => (realize reg dec).bind fun dec => (inlineDeconstruct reg dec).map some
    | none => some none
  if (reg.findHolderIdByName name).isSome then none
  else some (reg ++ [.constr name inlined])

def program (reg : Registry) (name : String) : Option Deconstruct :=
  (reg.findHolderIdByName name).bind reg.deconstruct

end Registry

end ScCore.Search
