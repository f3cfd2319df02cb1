import ScCore.Gen.Generator

/-!
# Connectors of SCs

`gen_connector` and `scsentence` of the compiler, with the special nodes that stand for types.
-/

namespace ScCore.Scc

open Gen

inductive SpecialNode where
  | node
  | arcMain
  | undf
  | arc
  | fuz
  | pos
  | neg
  deriving DecidableEq

def arcMain : ScType := .arcAccessory ||| .const ||| .pos ||| .permanent

namespace SpecialNode

def newType : SpecialNode → ScType
  | node => .node
  | arcMain => Scc.arcMain
  | undf => .undf
  | arc => .arc
  | fuz => .fuz
  | pos => .pos
  | neg => .neg

def mask : SpecialNode → ScType
  | node | undf | arc => .syntacticMask
  | arcMain => .syntacticMask ||| .constancyMask ||| .fuzzynessMask
  | fuz | pos | neg => .fuzzynessMask

/-- `syntactic_special_node::is_allowed`. -/
def syntacticAllowed (newType oldType : ScType) : Bool :=
  oldType = newType ∨ (oldType = .undf ∧ (newType = .node ∨ newType = .arc)) ∨
    (oldType = .arc ∧ newType = Scc.arcMain)

/-- `fuz_special_node::is_allowed`. -/
def fuzAllowed (newType oldType : ScType) : Bool :=
  oldType = newType ∨ oldType &&& .fuzzynessMask = 0

def isAllowed (n : SpecialNode) (oldType : ScType) : Bool :=
  match n with
  | node | arcMain | undf | arc => syntacticAllowed n.newType oldType
  | fuz | pos | neg => fuzAllowed n.newType oldType

end SpecialNode

inductive ObjectType where
  | scElement
  | specNode (special : SpecialNode)
  | program
  | variable
  | label
  | parameter
  deriving DecidableEq

namespace ObjectType

/-- `OBJ_SPEC_NODE`. -/
def special : ObjectType → Option SpecialNode
  | specNode special => some special
  | _ => none

/-- `to_type & OBJ_SC_ELEMENT`. -/
def isScElement : ObjectType → Bool
  | label => false
  | _ => true

end ObjectType

structure LangObject where
  type : ObjectType
  sign : Addr
  deriving DecidableEq

inductive Constancy where
  | const
  | var
  | metavar
  deriving DecidableEq

def Constancy.type : Constancy → ScType
  | const => .const
  | var => .var
  | metavar => .metavar

structure ScAttributes where
  consts : List LangObject
  vars : List LangObject
  metavars : List LangObject
  deriving DecidableEq

namespace ScAttributes

def new : ScAttributes := ⟨[], [], []⟩

/-- `sc_attributes::add`; nothing is for the assertion. -/
def add (attrs : ScAttributes) (attr : LangObject) (arcType : ScType) : Option ScAttributes :=
  if arcType &&& .const ≠ 0 then some { attrs with consts := attrs.consts ++ [attr] }
  else if arcType &&& .var ≠ 0 then some { attrs with vars := attrs.vars ++ [attr] }
  else if arcType &&& .metavar ≠ 0 then some { attrs with metavars := attrs.metavars ++ [attr] }
  else none

def empty (attrs : ScAttributes) : Bool :=
  attrs.consts.isEmpty && attrs.vars.isEmpty && attrs.metavars.isEmpty

end ScAttributes

structure Ident where
  written : List (LangObject × Constancy)
  obj : LangObject
  deriving DecidableEq

namespace Ident

variable (i : Ident)

/-- `scattributesWithReturn`. -/
def attrs : Option ScAttributes :=
  i.written.foldlM (fun attrs a => attrs.add a.1 a.2.type) ScAttributes.new

end Ident

inductive Fuzzyness where
  | pos
  | neg
  | fuz
  deriving DecidableEq

def Fuzzyness.type : Fuzzyness → ScType
  | pos => .pos
  | neg => .neg
  | fuz => .fuz

inductive Connector where
  | access (fuzzyness : Fuzzyness) (constancy : Constancy) (temporary right : Bool)
  | general (constancy : Constancy)
  deriving DecidableEq

namespace Connector

/-- `$t` of the rule `connector`. To the left, the `~` is read behind the defaults. -/
def type : Connector → ScType
  | access fuzzyness constancy temporary right =>
      let tilde : ScType := if temporary then .temporary else 0
      let t : ScType := .arcAccessory ||| constancy.type ||| fuzzyness.type
      if right then (tilde ||| t).addDefault .permanencyMask .permanent
      else t.addDefault .permanencyMask .permanent ||| tilde
  | general constancy => .arc ||| constancy.type

def constancy : Connector → Constancy
  | access _ constancy _ _ => constancy
  | general constancy => constancy

end Connector

section Generating

variable (g : Generator)

/-- `generate_internal` without a name. -/
def generate (type : ScType) : Option Addr × Generator :=
  match g.output.createEl g.fields.activeSegment
      (if type = 0 then g.fields.elementType else type) with
  | (el, output) => (el, { g with output := output })

/-- The condition of `__element` to return the element: the arc of the set was generated. -/
def enclosed (el : Addr) : Bool :=
  match g.top.set with
  | none => true
  | some set => (g.internalGenArc set el g.fields.setArcType g.fields.activeSegment).1.isSome

/-- `element` of a new element. -/
def elementNew (type : ScType) : Option Addr × Generator :=
  match generate g type with
  | (none, g) => (none, g)
  | (some el, g) =>
      (if enclosed (Generator.genSentence el (g.pass el) g.top.prevEls) el then some el else none,
        g.element el)

/-- `enter_set` of a new element. -/
def enterSetNew (type : ScType) : Option Addr × Generator :=
  match generate g type with
  | (none, g) => (none, g)
  | (some el, g) => (some el, g.enterSet el)

/-- One of the three passes of `gen_connector` over attributes. -/
def genAttributes (arc : Addr) (constancy : Constancy) (attrs : List LangObject) : Generator :=
  let type : ScType := .arcAccessory ||| .pos ||| constancy.type
  let g : Generator := { g with fields := { g.fields with arcType := type } }
  let g := attrs.foldl (fun (g : Generator) attr => g.element attr.sign) g
  (g.arc.element arc).finish

/-- `session()->change_type`. -/
def changeType (a : Addr) (type : ScType) : Generator :=
  match type.verify with
  | none => { g with output := g.output.fail }
  | some type => { g with output := { g.output with
      types := Function.update g.output.types a type } }

end Generating

/-- What the compiler knows: the alphabet, and the elements `N1_` and `N2_`. -/
structure Compiler where
  newScAlpha : Bool
  n1 : Addr
  n2 : Addr

namespace Compiler

variable (cc : Compiler)

/-- `gen_connector`. Nothing is for `SCC_REPORT_ERROR`, which ends the compilation. -/
def genConnector (source : Ident) (arcType : ScType) (dest : Ident) (g : Generator) :
    Option (Option Addr × Generator) := do
  let attrs ← dest.attrs
  if arcType.isa .arc ∧ ¬ cc.newScAlpha then
    -- a binary tuple for a general arc of the old alphabet
    if ¬ attrs.empty then none
    else
      let constType := .constancyMask &&& arcType
      let type : ScType := .arcAccessory ||| .pos ||| constType
      let g : Generator :=
        { g with fields := { g.fields with attrArcType := type, arcType := type } }
      let (arc, g) := enterSetNew g (.node ||| constType)
      let g := (((g.attr cc.n1).element source.obj.sign).attr cc.n2).element dest.obj.sign
      some (arc, g.leaveSet.finish)
  else
    match elementNew g arcType with
    | (none, _) => none
    | (some arc, g) =>
        let g : Generator := { g with output := (g.output.setBeg arc source.obj.sign).2 }
        let g : Generator := { g with output := (g.output.setEnd arc dest.obj.sign).2 }
        let g := g.finish
        let g := genAttributes g arc .const attrs.consts
        let g := genAttributes g arc .var attrs.vars
        let g := genAttributes g arc .metavar attrs.metavars
        some (some arc, g.finish)

/-- `is_type_conversion`; nothing is for an error. -/
def isTypeConversion (source dest : LangObject) (arcType : ScType) : Option Bool :=
  if dest.type.special.isSome then none
  else if source.type.special.isSome then
    if ¬ dest.type.isScElement then none
    else if arcType ≠ arcMain then none
    else some true
  else some false

def applyTypeConversion (special : SpecialNode) (dest : LangObject) (g : Generator) :
    Option Generator :=
  let oldType := g.output.types dest.sign
  if special.isAllowed (oldType &&& special.mask) then
    some (changeType g dest.sign (oldType &&& ~~~ special.mask ||| special.newType))
  else none

/-- The loop of `scsentence` over the right side, for one identifier of the left side. -/
def scsentenceTo (source : Ident) (arcType : ScType) : List Ident → Generator → Option Generator
  | [], g => some g
  | dest :: dests, g =>
      match source.obj.type.special with
      | some special => do
          let _ ← isTypeConversion source.obj dest.obj arcType
          let attrs ← dest.attrs
          if ¬ attrs.empty then none
          else
            let g ← applyTypeConversion special dest.obj g
            scsentenceTo source arcType dests g
      | none => do
          let (_, g) ← cc.genConnector source arcType dest g
          scsentenceTo source arcType dests g

def scsentence (arcType : ScType) (toList : List Ident) : List Ident → Generator →
    Option Generator
  | [], g => some g
  | source :: sources, g => do
      let g ← cc.scsentenceTo source arcType toList g
      scsentence arcType toList sources g

end Compiler

end ScCore.Scc
