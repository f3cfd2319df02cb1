import Mathlib.Data.List.Basic

/-!
# Deconstruct programs

The programs by which constraints are searched, as in `sc_constraint.h`, and the
nested loops they stand for. What the commands ask of the memory is a parameter:
it does not change while a program runs.
-/

namespace ScCore.Search

inductive ItemType where
  | ret | filter | constr | func | setEach
  deriving DecidableEq, Repr

/-- `sc_deconstruct_prg_item`; an output that is dropped (-1) is `none`. -/
structure PrgItem where
  type : ItemType
  paramsIn : List Nat
  paramsOut : List (Option Nat)
  name : String
  id : Nat
  deriving DecidableEq, Repr

/-- `sc_deconstruct`. The last command is a return. -/
structure Deconstruct where
  inputCnt : Nat
  regCnt : Nat
  commands : List PrgItem
  deriving DecidableEq, Repr

/-- What the commands see of a session. A parameter is any value, and it is taken
for an element where it is as large as an address. -/
structure World (V : Type) where
  nil : V
  isElement : V → Bool
  isOpened : V → Bool
  /-- The values of a constraint's iterator, in order. -/
  iterator : Nat → List V → List (List V)
  filter : Nat → List V → Bool
  /-- What a function stores, and whether it succeeds. -/
  func : Nat → List V → V × Bool
  /-- The elements of a plain set. -/
  plainSet : V → List V

/-- The registers of a program. -/
abbrev Registers (V : Type) := Nat → V

variable {V : Type}

namespace Registers

def set (regs : Registers V) (r : Nat) (v : V) : Registers V := Function.update regs r v

def store (nil : V) (regs : Registers V) : List (Option Nat) → List V → Registers V
  | [], _ => regs
  | none :: outs, vs => regs.store nil outs vs.tail
  | some r :: outs, vs => (regs.set r (vs.headD nil)).store nil outs vs.tail

end Registers

namespace PrgItem

variable (item : PrgItem)

def args (regs : Registers V) : List V := item.paramsIn.map regs

def targets : List (Option Nat) :=
  match item.type with
  | .constr => item.paramsOut
  | .func | .setEach => item.paramsOut.take 1
  | .filter | .ret => []

def written : List Nat := item.targets.reduceOption

def resumes : Bool := item.type = .constr || item.type = .setEach

end PrgItem

namespace World

variable (world : World V)

def passes (v : V) : Bool := !world.isElement v || world.isOpened v

def choices (item : PrgItem) (args : List V) : List (List V) :=
  match item.type with
  | .constr => world.iterator item.id args
  | .filter => if world.filter item.id args then [[]] else []
  | .func =>
      let (v, ok) := world.func item.id args
      if ok && world.passes v then [[v]] else []
  | .setEach => (world.plainSet (args.headD world.nil)).map fun v => [v]
  | .ret => []

def solve (item : PrgItem) (regs : Registers V) : List (Registers V) :=
  (world.choices item (item.args regs)).map fun vs => regs.store world.nil item.targets vs

def solutions (items : List PrgItem) (regs : Registers V) : List (Registers V) :=
  items.foldl (fun found item => found.flatMap (world.solve item)) [regs]

theorem foldl_solve (items : List PrgItem) (found : List (Registers V)) :
    items.foldl (fun found item => found.flatMap (world.solve item)) found =
      found.flatMap (world.solutions items) := by
  induction items generalizing found with
  | nil => exact (List.flatMap_singleton' found).symm
  | cons item items ih =>
    have hcons : world.solutions (item :: items) =
        fun regs => (world.solve item regs).flatMap (world.solutions items) := by
      funext regs
      rw [solutions, List.foldl_cons, ih, List.flatMap_singleton]
    rw [List.foldl_cons, ih, List.flatMap_assoc, hcons]

@[simp]
theorem solutions_nil (regs : Registers V) : world.solutions [] regs = [regs] := rfl

theorem solutions_cons (item : PrgItem) (items : List PrgItem) (regs : Registers V) :
    world.solutions (item :: items) regs =
      (world.solve item regs).flatMap (world.solutions items) := by
  rw [solutions, List.foldl_cons, foldl_solve, List.flatMap_singleton]

theorem solutions_append (items items' : List PrgItem) (regs : Registers V) :
    world.solutions (items ++ items') regs =
      (world.solutions items regs).flatMap (world.solutions items') := by
  rw [solutions, List.foldl_append, foldl_solve]
  rfl

end World

/-- The registers when a program begins: the inputs and, behind them, nothing. -/
def inputRegisters (nil : V) (cnt : Nat) (inputs : List V) : Registers V :=
  fun r => (inputs.take cnt).getD r nil

def PrgItem.Proper (item : PrgItem) : Prop :=
  match item.type with
  | .constr | .filter => True
  | .func => ∃ r, item.paramsOut = [some r]
  | .setEach => ∃ s r, item.paramsIn = [s] ∧ item.paramsOut = [some r]
  | .ret => False

/-- The commands read what is in `known` or written before, and write what is not. -/
def Scoped : List Nat → List PrgItem → Prop
  | _, [] => True
  | known, item :: items => item.Proper ∧ (∀ r ∈ item.paramsIn, r ∈ known) ∧
      (∀ r ∈ item.written, r ∉ known) ∧ Scoped (known ++ item.written) items

def knownAfter (known : List Nat) (items : List PrgItem) : List Nat :=
  items.foldl (fun known item => known ++ item.written) known

theorem knownAfter_append (known : List Nat) (items items' : List PrgItem) :
    knownAfter known (items ++ items') = knownAfter (knownAfter known items) items' := by
  simp [knownAfter]

theorem scoped_append {known : List Nat} {items items' : List PrgItem} :
    Scoped known (items ++ items') ↔
      Scoped known items ∧ Scoped (knownAfter known items) items' := by
  induction items generalizing known with
  | nil => simp [Scoped, knownAfter]
  | cons item items ih =>
    simp only [List.cons_append, Scoped, ih, knownAfter, List.foldl_cons]
    tauto

/-- A program whose every register is written before it is read, and by one
command only; the call writes the inputs. -/
structure Program where
  inputCnt : Nat
  regCnt : Nat
  body : List PrgItem
  ret : PrgItem
  inScope : Scoped (List.range inputCnt) body
  returns : ret.type = .ret
  known : ∀ r ∈ ret.paramsIn, r ∈ knownAfter (List.range inputCnt) body

def Program.toDeconstruct (p : Program) : Deconstruct :=
  ⟨p.inputCnt, p.regCnt, p.body ++ [p.ret]⟩

def World.results (world : World V) (p : Program) (inputs : List V) : List (List V) :=
  (world.solutions p.body (inputRegisters world.nil p.inputCnt inputs)).map p.ret.args

end ScCore.Search
