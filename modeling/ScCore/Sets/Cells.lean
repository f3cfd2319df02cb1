import ScCore.Search.Operands
import ScCore.Store.CalmGen

/-!
# Cells of lists

`sc_list`: a cell is a node from which an arc leads to its value and another one to the next cell.
An arc from `LIST_VALUE_` or from `LIST_NEXT_` tells which is which.
-/

namespace ScCore.Sets

open ScCore.Store ScCore.Search Memory Relation

inductive Field where
  | value
  | next
  deriving DecidableEq, Repr

/-- `LIST_VALUE_` and `LIST_NEXT_`. -/
abbrev ListAttrs := Field → Addr

/-- `SC_A_CONST|SC_POS`. -/
abbrev cellArcType : ScType := .arcAccessory ||| .const ||| .pos

section Code

variable (ss : Session) (w : Waits) (fuel : Nat) (attrs : ListAttrs)

/-- `search_oneshot` for an arc from the element that the attribute marks: the arc and its end. -/
def searchOneshot (m : Memory) (list attr : Addr) : Option (Option (Addr × Addr)) := do
  let it ← Std5Iter.create ss m list attr 0 0 0
  if it.isOver then some none
  else
    let e2 ← it.e2
    let e3 ← it.e3
    some (some (e2, e3))

def link (seg : SegId) (m : Memory) (list : Addr) (e : Option Addr) (attr : Addr) :
    Option (Memory × Retval) := do
  let (m, _, rv) ← ss.gen5 w fuel m (some list) seg cellArcType e seg cellArcType (some attr)
  some (m, rv)

/-- `SC_ABORT` where the arc cannot be made. -/
def linkOrAbort (seg : SegId) (m : Memory) (list : Addr) (e : Option Addr) (attr : Addr) :
    Option Memory := do
  let (m, rv) ← link ss w fuel seg m list e attr
  if rv ≠ rvOk then none else some m

/-- `sc_list::create`. The arc that `LIST_NEXT_` marks leads to the value. -/
def create (seg : SegId) (val next : Option Addr) (m : Memory) : Option (Memory × Addr) := do
  let (m, l, _) ← ss.createEl m seg (.node ||| .const)
  let l ← l
  let m ← if val.isSome then linkOrAbort ss w fuel seg m l val (attrs .value) else some m
  let m ← if next.isSome then linkOrAbort ss w fuel seg m l val (attrs .next) else some m
  some (m, l)

def eraseOld (m : Memory) (list attr : Addr) : Option Memory := do
  match ← searchOneshot ss m list attr with
  | none => some m
  | some (arc, _) =>
      let (m, _) ← ss.eraseEl w fuel m (some arc)
      some m

def setNext (seg : SegId) (m : Memory) (list1 : Addr) (list2 : Option Addr) :
    Option (Memory × Retval) := do
  let m ← eraseOld ss w fuel m list1 (attrs .next)
  link ss w fuel seg m list1 list2 (attrs .next)

def setValue (seg : SegId) (m : Memory) (list : Addr) (val : Option Addr) :
    Option (Memory × Retval) := do
  let m ← eraseOld ss w fuel m list (attrs .value)
  if val.isSome then link ss w fuel seg m list val (attrs .value) else some (m, rvOk)

/-- `sc_list::get_value` and `sc_list::get_next`. -/
def getField (m : Memory) (list : Addr) (field : Field) : Option (Option Addr) :=
  (searchOneshot ss m list (attrs field)).map fun found => found.map Prod.snd

def getValue (m : Memory) (list : Addr) : Option (Option Addr) := getField ss attrs m list .value

def getNext (m : Memory) (list : Addr) : Option (Option Addr) := getField ss attrs m list .next

def getPrev {lost : Bool} {m : Memory} (its : Searches lost ss m) (list : Addr) : Option Addr :=
  match its.iterator .std5Aafaf
      [.type 0, .type 0, .addr (some list), .type 0, .addr (some (attrs .next))] with
  | (.addr e1 :: _) :: _ => e1
  | _ => none

def erase : Nat → Memory → Addr → Option Memory
  | 0, _, _ => none
  | fuel + 1, m, prev => do
      let curr ← getNext ss attrs m prev
      let (m, _) ← ss.eraseEl w fuel m (some prev)
      match curr with
      | none => some m
      | some curr => erase fuel m curr

end Code

section Searches

variable {ss : Session} {m : Memory} {c k e x y : Addr}

/-- The arc `x` from `c` to `e` is marked by the arc `y` from `k`. -/
structure Marked (m : Memory) (c k x y e : Addr) : Prop where
  arc : Arc m x c e
  mark : Arc m y k x

structure Shown (ss : Session) (m : Memory) (x y e : Addr) : Prop where
  arc : InOpened ss m x
  fin : InOpened ss m e ∧ Accepts m 0 e
  mark : InOpened ss m y
  types : Accepts m 0 x ∧ Accepts m 0 y

theorem seen_of_opened (opened : InOpened ss m x) : Seen ss m c x := by
  obtain ⟨g, hg, hopen⟩ := opened
  exact .inr ⟨g.seg, by rw [segOf, hg, Option.map_some], hopen⟩

theorem searchOneshot_eq (quiet : Quiet m) (stored : ∃ g, m.addrs c = some g) :
    (searchOneshot ss m c k = some none ∧ ∀ x y e, Marked m c k x y e → ¬Shown ss m x y e) ∨
      ∃ x y e, searchOneshot ss m c k = some (some (x, e)) ∧ Marked m c k x y e := by
  obtain ⟨h, inv, unheld⟩ := quiet.inv
  have runs : Std5Iter.RunsTo ss m c k 0 0 0 (handTuples ss m c k 0 0 0) :=
    Std5Iter.runsTo ss inv unheld stored k 0 0 0
  obtain ⟨it, create, yields⟩ := runs
  rw [searchOneshot, create, Option.bind_eq_bind, Option.bind_some]
  generalize tuples : handTuples ss m c k 0 0 0 = l at yields
  cases yields with
  | isOver ended =>
    refine .inl ⟨if_pos ended, fun x y e marked shown => ?_⟩
    have found : _ ∈ handTuples ss m c k 0 0 0 := (mem_handTuples quiet).mpr
      (exists_five.mpr ⟨c, x, e, y, k, rfl, marked.arc, marked.mark, rfl, shown.types.1,
        shown.fin.2, shown.types.2, rfl, seen_of_opened shown.arc, shown.fin.1,
        seen_of_opened shown.mark⟩)
    rw [tuples] at found
    cases found
  | next running =>
    have found : it.values ∈ handTuples ss m c k 0 0 0 := tuples ▸ List.mem_cons_self
    obtain ⟨c, x, e, y, k, same, arc, mark, rfl, -, -, -, rfl, -⟩ :=
      exists_five.mp ((mem_handTuples quiet).mp found)
    simp only [Std5Iter.values, Pattern.values, List.map_cons, List.cons.injEq,
      Param.addr.injEq] at same
    obtain ⟨-, hx, he, -⟩ := same
    refine .inr ⟨x, y, e, ?_, arc, mark⟩
    rw [running, hx, he]
    rfl

end Searches

end ScCore.Sets
