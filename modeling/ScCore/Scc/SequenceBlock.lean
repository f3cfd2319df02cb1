import ScCore.Scc.CondBlock

/-!
# Sequences of operators and labels

`sequence_code_block`, `custom_operator` and `label_block`, the rules of `SCPs.g` that build the
body of a program, and `set_main_block`. The signs are counted in the order of their creation.
-/

namespace ScCore.Scc

/-- The attributes of components. What somebody else attaches to a label has `refer`. -/
inductive Attr where
  | init_
  | goto_
  | then_
  | else_
  | refer (l : Nat)
  deriving DecidableEq, Repr

structure Component where
  tuple : Sign
  attr : Attr
  el : Sign
  deriving DecidableEq, Repr

/-- The nodes, all of them `SC_N_CONST` without a content, with the types of operators, and the
components of tuples in the order of their creation. -/
structure BodyMemory where
  next : Sign
  live : Sign → Bool
  types : Sign → Option Nat
  components : List Component

namespace BodyMemory

variable (m : BodyMemory)

def createEl : BodyMemory :=
  { m with next := m.next + 1, live := Function.update m.live m.next true }

def at? (tuple : Sign) (attr : Attr) : Option Sign :=
  (m.components.find? fun c => c.tuple = tuple ∧ c.attr = attr).map Component.el

/-- The component that `sc_tup::at` finds is erased. -/
def eraseAt (tuple : Sign) (attr : Attr) : BodyMemory :=
  { m with components := m.components.eraseP fun c => c.tuple = tuple ∧ c.attr = attr }

def addC (tuple : Sign) (attr : Attr) (el : Sign) : BodyMemory :=
  if m.live tuple ∧ m.live el then { m with components := m.components ++ [⟨tuple, attr, el⟩] }
  else m

/-- `erase_el`, with the arcs at the element. Nothing happens to an element that is dead. -/
def eraseEl (a : Sign) : BodyMemory :=
  if m.live a then
    { m with live := Function.update m.live a false,
             components := m.components.filter fun c => c.tuple ≠ a ∧ c.el ≠ a }
  else m

/-- An arc at `other` is moved to `main`. -/
def Component.moved (main other : Sign) (c : Component) : Component :=
  { c with tuple := if c.tuple = other then main else c.tuple,
           el := if c.el = other then main else c.el }

/-- `sc_merge_elements`. Two nodes without contents are refused when one of them is dead only. -/
def mergeElements (main other : Sign) : BodyMemory :=
  if m.live main ∧ m.live other then
    eraseEl { m with components := m.components.map (Component.moved main other) } other
  else m

end BodyMemory

inductive Leaf where
  /-- `custom_operator`. -/
  | operator (sign : Sign)
  /-- `label_block`. -/
  | label (l : Nat)
  deriving DecidableEq, Repr

inductive BodyBlock where
  | leaf (x : Leaf)
  /-- `sequence_code_block`. -/
  | sequence (blocks : List BodyBlock)

namespace BodyBlock

mutual

/-- The block that `get_first_scp_op` comes to through `blocks.front()`. -/
def front : BodyBlock → Option Leaf
  | leaf x => some x
  | sequence blocks => frontOf blocks

def frontOf : List BodyBlock → Option Leaf
  | [] => none
  | blk :: _ => blk.front

end

mutual

/-- The block that the other functions come to through `blocks.back()`. -/
def back : BodyBlock → Option Leaf
  | leaf x => some x
  | sequence blocks => backOf blocks

def backOf : List BodyBlock → Option Leaf
  | [] => none
  | [blk] => blk.back
  | _ :: blk :: blocks => backOf (blk :: blocks)

end

end BodyBlock

/-- The fields of `custom_operator` that are about branches. -/
structure OperatorBlocks where
  immutableGoto : Bool
  immutableThen : Bool
  immutableElse : Bool
  thenBlk : Option BodyBlock
  elseBlk : Option BodyBlock
  gotoBlk : Option BodyBlock

/-- The constructor of `custom_operator`. -/
def OperatorBlocks.new : OperatorBlocks := ⟨false, false, false, none, none, none⟩

/-- The blocks of a program that is compiled, and the memory. `placeholders` are all nodes that
were made for labels. -/
structure Building where
  ops : Sign → OperatorBlocks
  blk : Nat → Option BodyBlock
  dummyOp : Nat → Option Sign
  placeholders : List Sign
  memory : BodyMemory

namespace Building

variable (st : Building)

/-- `dummy_op` is made. -/
def createDummy (l : Nat) : Building :=
  { st with dummyOp := Function.update st.dummyOp l (some st.memory.next),
            placeholders := st.placeholders ++ [st.memory.next], memory := st.memory.createEl }

/-- `get_first_scp_op`. The inner nothing is `SCADDR_NIL`; nothing at all is no result, as when
labels wait for each other. -/
def getFirstScpOp : Nat → Option Leaf → Building → Option (Option Sign × Building)
  | 0, _, _ => none
  | _ + 1, none, st => some (none, st)
  | _ + 1, some (.operator s), st => some (some s, st)
  | n + 1, some (.label l), st =>
      match st.blk l with
      | some b => getFirstScpOp n b.front st
      | none =>
          match st.dummyOp l with
          | some d => some (some d, st)
          | none => some (some st.memory.next, st.createDummy l)

def getGoto : Leaf → Option BodyBlock
  | .operator s => (st.ops s).gotoBlk
  | .label l => st.blk l

def getThen : Leaf → Option BodyBlock
  | .operator s => (st.ops s).thenBlk
  | .label _ => none

def getElse : Leaf → Option BodyBlock
  | .operator s => (st.ops s).elseBlk
  | .label _ => none

/-- The branch `attr` of the operator `s` in the memory. The branches `gone` are erased first. -/
def setBranchOp (s : Sign) (gone : List Attr) (attr : Attr) (op : Option Sign) : Building :=
  let m := gone.foldl (fun m attr => m.eraseAt s attr) st.memory
  { st with memory := op.elim m (m.addC s attr) }

/-- `set_then`, `set_else` and `set_goto` of an operator. -/
def setBranch (refuses : OperatorBlocks → Bool)
    (store : OperatorBlocks → Option BodyBlock → OperatorBlocks) (gone : List Attr) (attr : Attr)
    (n : Nat) (s : Sign) (b : BodyBlock) : Option Building :=
  if refuses (st.ops s) then some st
  else do
    let ops := Function.update st.ops s (store (st.ops s) (some b))
    let (op, st) ← getFirstScpOp n b.front { st with ops := ops }
    some (st.setBranchOp s gone attr op)

/-- `set_then`. A label throws. -/
def setThen (n : Nat) (b : BodyBlock) : Leaf → Option Building
  | .operator s =>
      st.setBranch (fun o => o.immutableGoto || o.immutableThen)
        (fun o b => { o with thenBlk := b }) [.then_, .goto_] .then_ n s b
  | .label _ => none

/-- `set_else`. A label throws. -/
def setElse (n : Nat) (b : BodyBlock) : Leaf → Option Building
  | .operator s =>
      st.setBranch (fun o => o.immutableGoto || o.immutableElse)
        (fun o b => { o with elseBlk := b }) [.else_, .goto_] .else_ n s b
  | .label _ => none

/-- `label_block::set_goto`. It asserts that it has no block yet. -/
def placeLabel (n : Nat) (b : BodyBlock) (l : Nat) : Option Building := do
  if (st.blk l).isSome then none
  else do
    let (first, st) ← getFirstScpOp n b.front st
    let (dummy, st) ← getFirstScpOp n (some (.label l)) st
    let merged := match first, dummy with
      | some main, some other => st.memory.mergeElements main other
      | _, _ => st.memory
    some { st with
      blk := Function.update st.blk l (some b),
      dummyOp := Function.update st.dummyOp l none,
      memory := (st.dummyOp l).elim merged merged.eraseEl }

def setGoto (n : Nat) (b : BodyBlock) : Leaf → Option Building
  | .operator s =>
      st.setBranch (fun o => o.immutableGoto || o.immutableThen || o.immutableElse)
        (fun o b => { o with gotoBlk := b }) [.then_, .else_, .goto_] .goto_ n s b
  | .label l => st.placeLabel n b l

def setNext (n : Nat) (b : BodyBlock) (x : Leaf) : Option Building :=
  if (st.getGoto x).isSome then some st
  else if (st.getThen x).isSome ∧ (st.getElse x).isNone then st.setElse n b x
  else if (st.getElse x).isSome ∧ (st.getThen x).isNone then st.setThen n b x
  else st.setGoto n b x

/-- `sequence_code_block::add`. It asserts that the block before is not empty. -/
def add (n : Nat) (blocks : List BodyBlock) (b : BodyBlock) : Option (List BodyBlock × Building) :=
  match blocks.getLast? with
  | none => some ([b], st)
  | some prevLast => do
      let x ← prevLast.back
      let st ← st.setNext n b x
      some (blocks ++ [b], st)

/-- `new custom_operator` and `set_type`. -/
def createOperator (type : Nat) : Building :=
  { st with
    ops := Function.update st.ops st.memory.next .new,
    memory := { st.memory.createEl with
      types := Function.update st.memory.types st.memory.next (some type) } }

def program : Sign := 0

/-- Somebody attaches something to the label `l`. -/
def referTo (n : Nat) (l : Nat) : Option Building := do
  let (op, st) ← getFirstScpOp n (some (.label l)) st
  some { st with memory := op.elim st.memory (st.memory.addC program (.refer l)) }

end Building

/-- What the body of a program is made of. A label is a block of its own, whatever its name; it
may be referred to before it is placed and after. -/
inductive Item where
  | operator (type : Nat)
  | label (l : Nat)
  | refer (l : Nat)
  | sequence (items : List Item)

namespace Item

mutual

def build (n : Nat) : Item → Building → Option (Option BodyBlock × Building)
  | operator type, st => some (some (.leaf (.operator st.memory.next)), st.createOperator type)
  | label l, st => some (some (.leaf (.label l)), st)
  | refer l, st => do
      let st ← st.referTo n l
      some (none, st)
  | sequence items, st => do
      let (blocks, st) ← buildAll n items [] st
      some (some (.sequence blocks), st)

def buildAll (n : Nat) : List Item → List BodyBlock → Building →
    Option (List BodyBlock × Building)
  | [], blocks, st => some (blocks, st)
  | item :: items, blocks, st => do
      let (b, st) ← item.build n st
      let (blocks, st) ← b.elim (some (blocks, st)) (st.add n blocks)
      buildAll n items blocks st

end

end Item

def Building.start : Building where
  ops _ := .new
  blk _ := none
  dummyOp _ := none
  placeholders := []
  memory := ⟨1, fun s => s = 0, fun _ => none, []⟩

/-- `set_main_block` of a program that has none. It asserts that the block is not empty. -/
def Building.setMainBlock (n : Nat) (main : BodyBlock) (st : Building) : Option Building := do
  let (first, st) ← Building.getFirstScpOp n main.front st
  let op ← first
  some { st with memory := st.memory.addC Building.program .init_ op }

def compileBody (n : Nat) (body : List Item) : Option Building := do
  let (blocks, st) ← Item.buildAll n body [] .start
  st.setMainBlock n (.sequence blocks)

inductive Word where
  | operator (type : Nat)
  | label (l : Nat)
  deriving DecidableEq, Repr

namespace Item

mutual

def text : Item → List Word
  | operator type => [.operator type]
  | label l => [.label l]
  | refer _ => []
  | sequence items => textOf items

def textOf : List Item → List Word
  | [] => []
  | item :: items => item.text ++ textOf items

end

mutual

def refers : Item → List Nat
  | refer l => [l]
  | sequence items => refersOf items
  | _ => []

def refersOf : List Item → List Nat
  | [] => []
  | item :: items => item.refers ++ refersOf items

end

mutual

def filled : Item → Bool
  | sequence items => !(textOf items).isEmpty && filledAll items
  | _ => true

def filledAll : List Item → Bool
  | [] => true
  | item :: items => item.filled && filledAll items

end

end Item

namespace Word

def type? : Word → Option Nat
  | operator type => some type
  | label _ => none

def label? : Word → Option Nat
  | operator _ => none
  | label l => some l

end Word

structure WellFormed (body : List Item) : Prop where
  labels : ((Item.textOf body).filterMap Word.label?).Nodup
  filled : Item.filledAll body = true
  last : ∃ type, (Item.textOf body).getLast? = some (.operator type)
  refers : ∀ l ∈ Item.refersOf body, .label l ∈ Item.textOf body

def operatorsBefore (text : List Word) (l : Nat) : Nat :=
  ((text.takeWhile (· ≠ .label l)).filterMap Word.type?).length

namespace BodyMemory

variable (m : BodyMemory)

/-- From `op` the branches `GOTO_` lead through exactly the operators of the list. -/
def Path : Option Sign → List Sign → Prop
  | none, [] => True
  | some op, s :: rest => op = s ∧ Path (m.at? s .goto_) rest
  | _, _ => False

def Component.refer? (c : Component) : Option (Nat × Sign) :=
  match c.attr with
  | .refer l => some (l, c.el)
  | _ => none

def references : List (Nat × Sign) := m.components.filterMap Component.refer?

end BodyMemory

/-- Control passes through the operators as they stand in the text, what was attached to a label
is attached to the operator behind it, and no placeholder is left. -/
def Sequential (body : List Item) (st : Building) : Prop :=
  ∃ signs : List Sign, signs.Nodup ∧
    signs.map st.memory.types = ((Item.textOf body).filterMap Word.type?).map some ∧
    st.memory.Path (st.memory.at? Building.program .init_) signs ∧
    st.memory.references.map (fun r => (r.1, some r.2)) =
      (Item.refersOf body).map (fun l => (l, signs[operatorsBefore (Item.textOf body) l]?)) ∧
    ∀ d ∈ st.placeholders, st.memory.live d = false

end ScCore.Scc
