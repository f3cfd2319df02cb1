import ScCore.Lib.Fuel
import ScCore.Search.Deconstruct

/-!
# The fallback iterator

The backtracking machine of `fallback.cpp`. It is frozen at the return of a
program and goes back from there when it is asked for the next tuple.
-/

namespace ScCore.Search

variable {V : Type}

/-- `iter_part`, where it is not null: an iterator with its values from the present
one on, or what is left of a plain set. -/
inductive IterPart (V : Type) where
  | iter (values : List (List V))
  | setState (rest : List V)

structure FallbackIterator (V : Type) where
  isOver : Bool
  registers : Registers V
  current : Nat → Option (IterPart V)

namespace FallbackIterator

def setCurrent (s : FallbackIterator V) (i : Nat) (part : Option (IterPart V)) :
    FallbackIterator V :=
  { s with current := Function.update s.current i part }

/-- The way back from command `i`: the last command before it that may have more
solutions. -/
def backward (commands : List PrgItem) : Nat → Option Nat
  | 0 => none
  | i + 1 =>
      match commands[i]? with
      | some item => if item.resumes then some i else backward commands i
      | none => backward commands i

/-- The iterator of command `i`, moved on if there is one; else it is a new one. -/
def nextIter (s : FallbackIterator V) (i : Nat) (new : List (List V)) : List (List V) :=
  match s.current i with
  | some (.iter values) => values.tail
  | _ => new

/-- What is left of the plain set of command `i`; else it is a whole one. -/
def nextSet (s : FallbackIterator V) (i : Nat) (new : List V) : List V :=
  match s.current i with
  | some (.setState rest) => rest
  | _ => new

variable (world : World V) (dec : Deconstruct)

/-- One round of the loop of `__next` at command `i`: the command that comes next. -/
def round (s : FallbackIterator V) (item : PrgItem) (i : Nat) : FallbackIterator V × Option Nat :=
  let args := item.args s.registers
  match item.type with
  | .setEach =>
      match s.nextSet i (world.plainSet (args.headD world.nil)) with
      | [] => (s.setCurrent i none, backward dec.commands i)
      | v :: rest =>
          let s := s.setCurrent i (some (.setState rest))
          ({ s with registers := s.registers.store world.nil (item.paramsOut.take 1) [v] },
            some (i + 1))
  | .constr =>
      match s.nextIter i (world.iterator item.id args) with
      | [] => (s.setCurrent i none, backward dec.commands i)
      | values :: rest =>
          let s := s.setCurrent i (some (.iter (values :: rest)))
          ({ s with registers := s.registers.store world.nil item.paramsOut values }, some (i + 1))
  | .filter =>
      if world.filter item.id args then (s, some (i + 1)) else (s, backward dec.commands i)
  | _ =>
      let (v, ok) := world.func item.id args
      let s := { s with registers := s.registers.store world.nil (item.paramsOut.take 1) [v] }
      if ok && world.passes v then (s, some (i + 1)) else (s, backward dec.commands i)

/-- The loop of `__next`, until it comes to the return or falls off the beginning. -/
def loop : Nat → Option Nat → FallbackIterator V → Option (FallbackIterator V)
  | _, none, s => some { s with isOver := true }
  | 0, some _, _ => none
  | fuel + 1, some i, s =>
      if i < dec.commands.length - 1 then
        match dec.commands[i]? with
        | some item =>
            let (s, next) := round world dec s item i
            loop fuel next s
        | none => none
      else some s

/-- `__next`. -/
def nextAt (fuel : Nat) (i : Nat) (s : FallbackIterator V) : Option (FallbackIterator V) :=
  if 0 < i ∧ dec.commands[i]?.any fun item => item.type ≠ .constr then
    loop world dec fuel (backward dec.commands (i + 1)) s
  else loop world dec fuel (some i) s

def create (fuel : Nat) (inputs : List V) : Option (FallbackIterator V) :=
  nextAt world dec fuel 0
    ⟨false, inputRegisters world.nil dec.inputCnt inputs, fun _ => none⟩

def next (fuel : Nat) (s : FallbackIterator V) : Option (FallbackIterator V) :=
  if s.isOver then some s else nextAt world dec fuel (dec.commands.length - 1) s

def value (s : FallbackIterator V) (num : Nat) : V :=
  if s.isOver then world.nil
  else match dec.commands.getLast? with
    | some ret => (ret.args s.registers).getD num world.nil
    | none => world.nil

def values (s : FallbackIterator V) : List V :=
  (List.range ((dec.commands.getLast?.map fun ret => ret.paramsIn.length).getD 0)).map
    (s.value world dec)

inductive Yields : FallbackIterator V → List (List V) → Prop where
  | isOver {s} : s.isOver = true → Yields s []
  | next {s s' fuel tuples} : s.isOver = false → s.next world dec fuel = some s' →
      Yields s' tuples → Yields s (s.values world dec :: tuples)

def RunsTo (inputs : List V) (tuples : List (List V)) : Prop :=
  ∃ fuel s, create world dec fuel inputs = some s ∧ Yields world dec s tuples

section Unique

variable {world : World V} {dec : Deconstruct} {inputs : List V} {s : FallbackIterator V}
  {tuples tuples' : List (List V)}

theorem loop_mono (next : Option Nat) (s : FallbackIterator V) :
    FuelMono fun fuel => loop world dec fuel next s := by
  intro fuel
  induction fuel generalizing next s with
  | zero =>
    intro s' h
    cases next with
    | none => exact h
    | some i => cases h
  | succ fuel ih =>
    intro s' h
    cases next with
    | none => exact h
    | some i =>
      simp only [loop] at h ⊢
      by_cases hlt : i < dec.commands.length - 1
      · rw [if_pos hlt] at h ⊢
        cases hitem : dec.commands[i]? with
        | none =>
          rw [hitem] at h
          cases h
        | some item =>
          rw [hitem] at h
          exact ih _ _ _ h
      · rwa [if_neg hlt] at h ⊢

theorem nextAt_mono (i : Nat) (s : FallbackIterator V) :
    FuelMono fun fuel => nextAt world dec fuel i s := by
  unfold nextAt
  split <;> exact loop_mono _ _

theorem next_mono (s : FallbackIterator V) : FuelMono fun fuel => s.next world dec fuel := by
  unfold next
  split
  · exact fun _ _ h => h
  · exact nextAt_mono _ _

theorem Yields.unique (h : Yields world dec s tuples) (h' : Yields world dec s tuples') :
    tuples = tuples' := by
  induction h generalizing tuples' with
  | isOver hover =>
    cases h' with
    | isOver => rfl
    | next hnot => simp [hover] at hnot
  | next hnot hnext _ ih =>
    cases h' with
    | isOver hover => simp [hover] at hnot
    | next _ hnext' yields =>
      obtain rfl := (next_mono _).unique hnext hnext'
      rw [ih yields]

theorem RunsTo.unique (h : RunsTo world dec inputs tuples) (h' : RunsTo world dec inputs tuples') :
    tuples = tuples' := by
  obtain ⟨fuel, s, hcreate, yields⟩ := h
  obtain ⟨fuel', s', hcreate', yields'⟩ := h'
  obtain rfl := (nextAt_mono _ _).unique hcreate hcreate'
  exact yields.unique yields'

end Unique

end FallbackIterator

end ScCore.Search
