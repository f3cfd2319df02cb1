import Mathlib.Logic.Function.Iterate

/-!
# Blocks of conditions

`scps_cond_block.h`, the branches of `custom_operator` and the rules of `SCPs.g` that
build a condition. The signs of the operators are counted in the order of their creation.
-/

namespace ScCore.Scc

/-- `sc_addr` of an scp-operator. -/
abbrev Sign := Nat

/-- The attributes `THEN_` and `ELSE_`, and with them `set_then` and `set_else`. -/
inductive Branch where
  | then_
  | else_
  deriving DecidableEq, Repr

namespace Branch

def other : Branch → Branch
  | then_ => else_
  | else_ => then_

/-- The branch that is followed after success or failure. -/
def ofOutcome (success : Bool) : Branch := if success then then_ else else_

end Branch

/-- `custom_operator`. A branch is erased from the tuple before it is set, so the tuple
has at most one component under each attribute. -/
structure CustomOperator where
  immutableThen : Bool
  immutableElse : Bool
  immutableGoto : Bool
  thenOp : Option Sign
  elseOp : Option Sign
  gotoOp : Option Sign
  deriving DecidableEq, Repr

namespace CustomOperator

/-- The constructor of `custom_operator`. -/
def new : CustomOperator := ⟨false, false, false, none, none, none⟩

def branch (o : CustomOperator) : Branch → Option Sign
  | .then_ => o.thenOp
  | .else_ => o.elseOp

/-- `custom_operator::set_then` and `set_else` of a block that begins with `op`. -/
def setBranch (b : Branch) (op : Option Sign) (o : CustomOperator) : CustomOperator :=
  match b with
  | .then_ =>
      if !o.immutableGoto && !o.immutableThen then { o with thenOp := op, gotoOp := none } else o
  | .else_ =>
      if !o.immutableGoto && !o.immutableElse then { o with elseOp := op, gotoOp := none } else o

end CustomOperator

/-- The operators of the program, each at its sign. -/
abbrev Operators := List CustomOperator

namespace Operators

/-- The successor that the memory has for the operator `s` and the outcome of its run. -/
def successor (m : Operators) (s : Sign) (success : Bool) : Option Sign :=
  m[s]?.bind fun o => o.branch (.ofOutcome success)

def setBranch (m : Operators) (s : Sign) (b : Branch) (op : Option Sign) : Operators :=
  m.modify s (CustomOperator.setBranch b op)

end Operators

/-- `or_cond_block` and `and_cond_block`, each the mirror image of the other. -/
inductive Connective where
  | or
  | and
  deriving DecidableEq, Repr

namespace Connective

def exit : Connective → Branch
  | or => .then_
  | and => .else_

def onward (c : Connective) : Branch := c.exit.other

end Connective

inductive CodeBlock where
  | operator (sign : Sign)
  | complex (c : Connective) (blocks : List CodeBlock)
  | not (blk : CodeBlock)

namespace CodeBlock

mutual

/-- `get_first_scp_op`; nothing stands for `SCADDR_NIL`. -/
def getFirstScpOp : CodeBlock → Option Sign
  | operator sign => some sign
  | complex _ blocks => getFrontScpOp blocks
  | not blk => blk.getFirstScpOp

/-- `blocks.front()->get_first_scp_op()`. -/
def getFrontScpOp : List CodeBlock → Option Sign
  | [] => none
  | blk :: _ => blk.getFirstScpOp

end

mutual

/-- `set_then` and `set_else` of a block that begins with `op`. The loop of
`or_cond_block::set_then` and of `and_cond_block::set_else` is over all members, and its
body is about the last one. -/
def setBranch : CodeBlock → Branch → Option Sign → Operators → Operators
  | operator sign, b, op => fun m => m.setBranch sign b op
  | complex c blocks, b, op =>
      if b = c.exit then (setBackBranch blocks b op)^[blocks.length] else setBackBranch blocks b op
  | not blk, b, op => blk.setBranch b.other op

/-- `blocks.back()->set_then` and `blocks.back()->set_else`. -/
def setBackBranch : List CodeBlock → Branch → Option Sign → Operators → Operators
  | [], _, _ => id
  | [blk], b, op => blk.setBranch b op
  | _ :: blk :: blocks, b, op => setBackBranch (blk :: blocks) b op

end

def setThen (blk : CodeBlock) (op : Option Sign) (m : Operators) : Operators :=
  blk.setBranch .then_ op m

def setElse (blk : CodeBlock) (op : Option Sign) (m : Operators) : Operators :=
  blk.setBranch .else_ op m

/-- `or_cond_block::add` and `and_cond_block::add`. -/
def add (c : Connective) (blocks : List CodeBlock) (blk : CodeBlock) (m : Operators) :
    List CodeBlock × Operators :=
  (blocks ++ [blk], match blocks.getLast? with
    | none => m
    | some prevLast => prevLast.setBranch c.onward blk.getFirstScpOp m)

end CodeBlock

/-- What the rules `condExpr`, `logicalAndExpr` and `logicalUnaryExpr` accept. A
`complex` has its first operand apart and any number of others. -/
inductive CondExpr where
  | operator
  | complex (c : Connective) (fst : CondExpr) (rest : List CondExpr)
  | not (e : CondExpr)

namespace CondExpr

/-- `if (!$blk) { $blk = new …; $blk->add($fst.blk); }`. Nothing stands for a null `$blk`. -/
def create (c : Connective) (fst : CodeBlock) (m : Operators) :
    Option (List CodeBlock) → List CodeBlock × Operators
  | none => CodeBlock.add c [] fst m
  | some blocks => (blocks, m)

mutual

def build : CondExpr → Operators → CodeBlock × Operators
  | operator, m => (.operator m.length, m ++ [.new])
  | complex c fst rest, m => buildRest c rest (fst.build m).1 none (fst.build m).2
  | not e, m => (.not (e.build m).1, (e.build m).2)

/-- The loop over the operands after the first, `fst`. -/
def buildRest (c : Connective) : List CondExpr → CodeBlock → Option (List CodeBlock) →
    Operators → CodeBlock × Operators
  | [], fst, none, m => (fst, m)
  | [], _, some blocks, m => (.complex c blocks, m)
  | snd :: rest, fst, blk, m =>
      let s := snd.build m
      let created := create c fst s.2 blk
      let added := CodeBlock.add c created.1 s.1 created.2
      buildRest c rest fst (some added.1) added.2

end

/-- A condition is built and its targets are set, `set_then` before `set_else` or after. -/
def compile (e : CondExpr) (thenFirst : Bool) (t f : Sign) (m : Operators) :
    CodeBlock × Operators :=
  let blk := (e.build m).1
  (blk, if thenFirst then blk.setElse (some f) (blk.setThen (some t) (e.build m).2)
    else blk.setThen (some t) (blk.setElse (some f) (e.build m).2))

end CondExpr

end ScCore.Scc
