import ScCore.Scc.CondBlock
import Mathlib.Data.List.Range

/-!
# Conditions against short-circuit evaluation

Every block hands its branches to its last operator only. So each operator but the last
of a condition has one branch, to the operator written after it, and a run leaves the
condition where short-circuit evaluation leaves it only if that skips nothing.
-/

namespace ScCore.Scc

namespace Connective

def unit : Connective → Bool
  | or => false
  | and => true

end Connective

namespace CondExpr

mutual

def size : CondExpr → Nat
  | operator => 1
  | complex _ fst rest => fst.size + sizeRest rest
  | not e => e.size

def sizeRest : List CondExpr → Nat
  | [] => 0
  | e :: es => e.size + sizeRest es

end

mutual

/-- Left-to-right short-circuit evaluation of a condition whose first operator is `k`: the
operators that are executed, and the value. -/
def eval (σ : Sign → Bool) : CondExpr → Sign → List Sign × Bool
  | operator, k => ([k], σ k)
  | complex c fst rest, k =>
      let r := evalRest σ c rest (k + fst.size) (fst.eval σ k).2
      ((fst.eval σ k).1 ++ r.1, r.2)
  | not e, k => ((e.eval σ k).1, !(e.eval σ k).2)

/-- The operands after one whose value was `v`. -/
def evalRest (σ : Sign → Bool) (c : Connective) :
    List CondExpr → Sign → Bool → List Sign × Bool
  | [], _, v => ([], v)
  | e :: es, k, v =>
      if v = c.unit then
        let r := evalRest σ c es (k + e.size) (e.eval σ k).2
        ((e.eval σ k).1 ++ r.1, r.2)
      else ([], v)

end

def SkipsNothing (σ : Sign → Bool) (e : CondExpr) (k : Sign) : Prop :=
  (e.eval σ k).1.length = e.size

instance (σ : Sign → Bool) (e : CondExpr) (k : Sign) : Decidable (SkipsNothing σ e k) :=
  inferInstanceAs (Decidable ((e.eval σ k).1.length = e.size))

end CondExpr

/-- From `s` the successors lead through exactly the operators of the list, and on to `t`. -/
def Operators.Follows (m : Operators) (σ : Sign → Bool) : Sign → List Sign → Sign → Prop
  | s, [], t => s = t
  | s, o :: os, t => s = o ∧ ∃ s', m.successor o (σ o) = some s' ∧ m.Follows σ s' os t

/-! ## The last operator of a block -/

namespace Branch

/-- The branch of the last operator that stands for the branch `b` of the block, where
`s` stands for `THEN_`. -/
def through (s : Branch) : Branch → Branch
  | then_ => s
  | else_ => s.other

theorem through_other (s b : Branch) : s.through b.other = s.other.through b := by
  cases b <;> cases s <;> rfl

end Branch

namespace CustomOperator

@[simp] theorem setBranch_idem (b : Branch) (op : Option Sign) (o : CustomOperator) :
    (o.setBranch b op).setBranch b op = o.setBranch b op := by
  cases b <;> simp only [setBranch] <;> split <;> simp_all

end CustomOperator

namespace Operators

theorem setBranch_idem (m : Operators) (s : Sign) (b : Branch) (op : Option Sign) :
    (m.setBranch s b op).setBranch s b op = m.setBranch s b op := by
  rw [setBranch, setBranch, List.modify_modify_eq]
  congr 1
  exact funext fun o => o.setBranch_idem b op

end Operators

/-- The block begins with the operator `first`, and its branches are those of the operator
`last`, of which `sense` is followed when the block is true. -/
structure CodeBlock.Spans (blk : CodeBlock) (first last : Sign) (sense : Branch) : Prop where
  first : blk.getFirstScpOp = some first
  set : ∀ b op m, blk.setBranch b op m = m.setBranch last (sense.through b) op

namespace CodeBlock.Spans

variable {blk : CodeBlock} {first last : Sign} {sense : Branch}

theorem operator (s : Sign) : (CodeBlock.operator s).Spans s s .then_ where
  first := by simp [getFirstScpOp]
  set b op m := by cases b <;> simp [CodeBlock.setBranch, Branch.through, Branch.other]

theorem not (h : blk.Spans first last sense) :
    (CodeBlock.not blk).Spans first last sense.other where
  first := by simp [getFirstScpOp, h.first]
  set b op m := by
    rw [CodeBlock.setBranch, h.set, Branch.through_other]

theorem setBack (blocks : List CodeBlock) {prev : CodeBlock} (h : prev.Spans first last sense)
    (b : Branch) (op : Option Sign) (m : Operators) :
    setBackBranch (blocks ++ [prev]) b op m = m.setBranch last (sense.through b) op := by
  induction blocks with
  | nil => rw [List.nil_append, setBackBranch, h.set]
  | cons blk blocks ih =>
    cases blocks with
    | nil => rw [List.cons_append, List.nil_append, setBackBranch, setBackBranch, h.set]
    | cons blk' blocks =>
      simp only [List.cons_append] at ih ⊢
      rw [setBackBranch, ih]

theorem iterate_setBranch (m : Operators) (s : Sign) (b : Branch) (op : Option Sign) (k : Nat) :
    (fun m : Operators => m.setBranch s b op)^[k + 1] m = m.setBranch s b op := by
  induction k with
  | zero => rfl
  | succ k ih => rw [Function.iterate_succ_apply', ih, Operators.setBranch_idem]

theorem complex (c : Connective) {blocks : List CodeBlock} {prev : CodeBlock} {start : Sign}
    (h : prev.Spans start last sense)
    (front : getFrontScpOp (blocks ++ [prev]) = some first) :
    (CodeBlock.complex c (blocks ++ [prev])).Spans first last sense where
  first := by rw [getFirstScpOp, front]
  set b op m := by
    have back : setBackBranch (blocks ++ [prev]) b op =
        fun m => m.setBranch last (sense.through b) op :=
      funext fun m => h.setBack blocks b op m
    rw [CodeBlock.setBranch, back]
    split
    · rw [List.length_append]
      exact iterate_setBranch m last (sense.through b) op blocks.length
    · rfl

end CodeBlock.Spans

theorem CodeBlock.getFrontScpOp_append {blocks : List CodeBlock} {first : Sign}
    (h : getFrontScpOp blocks = some first) (more : List CodeBlock) :
    getFrontScpOp (blocks ++ more) = some first := by
  cases blocks with
  | nil => simp [getFrontScpOp] at h
  | cons blk blocks => simpa [getFrontScpOp] using h

/-! ## The operators of a built condition -/

namespace Operators

/-- The operators from `k` on, each with one branch, to the next one, and `o` last. -/
def chain (k : Sign) : List Branch → CustomOperator → Operators
  | [], o => [o]
  | b :: bs, o => CustomOperator.new.setBranch b (some (k + 1)) :: chain (k + 1) bs o

@[simp] theorem length_chain (k : Sign) (bs : List Branch) (o : CustomOperator) :
    (chain k bs o).length = bs.length + 1 := by
  induction bs generalizing k with
  | nil => rfl
  | cons b bs ih => simp [chain, ih]

theorem chain_modify (k : Sign) (bs : List Branch) (o : CustomOperator) (more : Operators)
    (f : CustomOperator → CustomOperator) :
    (chain k bs o ++ more).modify bs.length f = chain k bs (f o) ++ more := by
  induction bs generalizing k with
  | nil => simp [chain]
  | cons b bs ih => simp [chain, ih]

theorem chain_append (k : Nat) (bs : List Branch) (b : Branch) (bs' : List Branch)
    (o : CustomOperator) :
    chain k bs (CustomOperator.new.setBranch b (some (k + bs.length + 1))) ++
      chain (k + bs.length + 1) bs' o = chain k (bs ++ b :: bs') o := by
  induction bs generalizing k with
  | nil => simp [chain]
  | cons a bs ih =>
    have := ih (k + 1)
    simp only [chain, List.cons_append, List.length_cons] at this ⊢
    rw [show k + (bs.length + 1) + 1 = k + 1 + bs.length + 1 by omega, this]

theorem modify_append_length (m more : Operators) (i : Nat)
    (f : CustomOperator → CustomOperator) :
    (m ++ more).modify (m.length + i) f = m ++ more.modify i f := by
  induction m with
  | nil => simp
  | cons o m ih => simp [Nat.add_right_comm, ih]

theorem setBranch_chain (m : Operators) (bs : List Branch) (o : CustomOperator)
    (more : Operators) (b : Branch) (op : Option Sign) :
    (m ++ (chain m.length bs o ++ more)).setBranch (m.length + bs.length) b op =
      m ++ (chain m.length bs (o.setBranch b op) ++ more) := by
  rw [setBranch, modify_append_length, chain_modify]

end Operators

namespace CondExpr

mutual

def sense : CondExpr → Branch
  | operator => .then_
  | complex _ fst rest => senseRest rest fst.sense
  | not e => e.sense.other

def senseRest : List CondExpr → Branch → Branch
  | [], s => s
  | e :: es, _ => senseRest es e.sense

end

mutual

def branches : CondExpr → List Branch
  | operator => []
  | complex c fst rest => fst.branches ++ branchesRest c rest fst.sense
  | not e => e.branches

def branchesRest (c : Connective) : List CondExpr → Branch → List Branch
  | [], _ => []
  | e :: es, s => s.through c.onward :: (e.branches ++ branchesRest c es e.sense)

end

mutual

theorem size_eq : ∀ e : CondExpr, e.size = e.branches.length + 1
  | operator => rfl
  | complex c fst rest => by
    rw [size, branches, List.length_append, size_eq fst, sizeRest_eq c rest fst.sense]
    omega
  | not e => by rw [size, branches, size_eq e]

theorem sizeRest_eq (c : Connective) : ∀ (es : List CondExpr) (s : Branch),
    sizeRest es = (branchesRest c es s).length
  | [], _ => rfl
  | e :: es, s => by
    rw [sizeRest, branchesRest, List.length_cons, List.length_append, size_eq e,
      sizeRest_eq c es e.sense]
    omega

end

/-- What the loop over the operands has built so far: `fst` alone, or a block that ends
with `prev`. -/
inductive Pending (fst : CodeBlock) (first last : Sign) (s : Branch) :
    Option (List CodeBlock) → Prop
  | single : fst.Spans first last s → Pending fst first last s none
  | block {prev start} (before : List CodeBlock) : prev.Spans start last s →
      CodeBlock.getFrontScpOp (before ++ [prev]) = some first →
      Pending fst first last s (some (before ++ [prev]))

theorem Pending.add {fst blk : CodeBlock} {first last start last' : Sign} {s s' : Branch}
    {pending : Option (List CodeBlock)} (h : Pending fst first last s pending)
    (next : blk.Spans start last' s') (c : Connective) (m : Operators) :
    let created := create c fst m pending
    let added := CodeBlock.add c created.1 blk created.2
    Pending fst first last' s' (some added.1) ∧
      added.2 = m.setBranch last (s.through c.onward) (some start) := by
  cases h with
  | single h =>
    constructor
    · apply Pending.block [fst] next
      simp [CodeBlock.getFrontScpOp, h.first]
    · simp only [create, CodeBlock.add, List.nil_append, List.getLast?_singleton,
        List.getLast?_nil]
      rw [h.set, next.first]
  | @block prev _ before h front =>
    constructor
    · apply Pending.block (before ++ [prev]) next
      exact CodeBlock.getFrontScpOp_append front [blk]
    · simp only [create, CodeBlock.add, List.getLast?_append, List.getLast?_singleton,
        Option.some_or]
      rw [h.set, next.first]

mutual

theorem build_spec : ∀ (e : CondExpr) (m : Operators),
    (e.build m).2 = m ++ Operators.chain m.length e.branches .new ∧
      (e.build m).1.Spans m.length (m.length + e.branches.length) e.sense
  | operator, m => ⟨rfl, .operator m.length⟩
  | complex c fst rest, m => by
    obtain ⟨mem, spans⟩ := build_spec fst m
    have rest := buildRest_spec c rest (m := m) (.single spans)
    rw [build, mem]
    exact rest
  | not e, m => by
    obtain ⟨mem, spans⟩ := build_spec e m
    rw [build, branches]
    exact ⟨mem, spans.not⟩

theorem buildRest_spec (c : Connective) : ∀ (es : List CondExpr) {fst : CodeBlock}
    {blk : Option (List CodeBlock)} {m : Operators} {bs : List Branch} {s : Branch},
    Pending fst m.length (m.length + bs.length) s blk →
    let r := buildRest c es fst blk (m ++ Operators.chain m.length bs .new)
    let all := bs ++ branchesRest c es s
    r.2 = m ++ Operators.chain m.length all .new ∧
      r.1.Spans m.length (m.length + all.length) (senseRest es s)
  | [], fst, blk, m, bs, s, h => by
    simp only [branchesRest, senseRest, List.append_nil]
    cases h with
    | single h => exact ⟨rfl, h⟩
    | block _ h front => exact ⟨rfl, .complex c h front⟩
  | e :: es, fst, blk, m, bs, s, h => by
    obtain ⟨mem, spans⟩ := build_spec e (m ++ Operators.chain m.length bs .new)
    simp only [List.length_append, Operators.length_chain] at mem spans
    obtain ⟨pending, linked⟩ := h.add spans c (e.build (m ++ Operators.chain m.length bs .new)).2
    have joined := Operators.chain_append m.length bs (s.through c.onward) e.branches .new
    have added := Operators.setBranch_chain m bs .new
      (Operators.chain (m.length + bs.length + 1) e.branches .new) (s.through c.onward)
      (some (m.length + bs.length + 1))
    rw [joined, ← List.append_assoc, Nat.add_assoc _ bs.length 1, ← mem] at added
    rw [added] at linked
    have last : m.length + (bs.length + 1) + e.branches.length =
        m.length + (bs ++ s.through c.onward :: e.branches).length := by
      simp only [List.length_append, List.length_cons]
      omega
    rw [last] at pending
    have rest := buildRest_spec c es pending
    simp only [buildRest, branchesRest, senseRest, linked]
    simpa only [List.append_assoc, List.cons_append] using rest

end

end CondExpr

/-! ## Evaluation along the branches -/

/-- Each operator from `k` on takes the branch that the chain has. -/
def Passes (σ : Sign → Bool) : Sign → List Branch → Prop
  | _, [] => True
  | k, b :: bs => .ofOutcome (σ k) = b ∧ Passes σ (k + 1) bs

def Stuck (σ : Sign → Bool) (k : Nat) (bs : List Branch) (trace : List Sign) : Prop :=
  ∃ i b, bs[i]? = some b ∧ .ofOutcome (σ (k + i)) ≠ b ∧ k + i ∈ trace

variable {σ : Sign → Bool}

theorem passes_append (k : Nat) (bs bs' : List Branch) :
    Passes σ k (bs ++ bs') ↔ Passes σ k bs ∧ Passes σ (k + bs.length) bs' := by
  induction bs generalizing k with
  | nil => simp [Passes]
  | cons b bs ih =>
    rw [List.cons_append, Passes, Passes, ih, and_assoc, List.length_cons, Nat.add_assoc k 1,
      Nat.add_comm 1]

theorem Stuck.append_left {k : Nat} {bs : List Branch} {trace : List Sign}
    (h : Stuck σ k bs trace) (bs' : List Branch) (trace' : List Sign) :
    Stuck σ k (bs ++ bs') (trace ++ trace') := by
  obtain ⟨i, b, get, ne, mem⟩ := h
  obtain ⟨lt, -⟩ := List.getElem?_eq_some_iff.mp get
  refine ⟨i, b, ?_, ne, List.mem_append_left _ mem⟩
  rw [List.getElem?_append_left lt, get]

theorem Stuck.append_right {k : Nat} {bs' : List Branch} {trace trace' : List Sign}
    (bs : List Branch) (h : Stuck σ (k + bs.length) bs' trace')
    (sub : ∀ x ∈ trace', x ∈ trace) : Stuck σ k (bs ++ bs') trace := by
  obtain ⟨i, b, get, ne, mem⟩ := h
  rw [Nat.add_assoc] at ne mem
  refine ⟨bs.length + i, b, ?_, ne, sub _ mem⟩
  rw [List.getElem?_append_right (by omega), Nat.add_sub_cancel_left, get]

namespace Connective

/-- The next member is evaluated exactly after the branch that leads to it. -/
theorem unit_iff (c : Connective) (s b : Branch) :
    (b == s) = c.unit ↔ b = s.through c.onward := by
  cases c <;> cases s <;> cases b <;> decide

end Connective

namespace CondExpr

mutual

theorem length_eval_le : ∀ (e : CondExpr) (k : Sign), (e.eval σ k).1.length ≤ e.size
  | operator, _ => Nat.le_refl 1
  | complex c fst rest, k => by
    rw [eval, size, List.length_append]
    exact Nat.add_le_add (length_eval_le fst k) (length_evalRest_le c rest _ _)
  | not e, k => length_eval_le e k

theorem length_evalRest_le (c : Connective) : ∀ (es : List CondExpr) (k : Sign) (v : Bool),
    (evalRest σ c es k v).1.length ≤ sizeRest es
  | [], _, _ => Nat.le_refl 0
  | e :: es, k, v => by
    rw [evalRest]
    split
    · rw [sizeRest, List.length_append]
      exact Nat.add_le_add (length_eval_le e k) (length_evalRest_le c es _ _)
    · exact Nat.zero_le _

end

mutual

/-- If every operator passes, all of them are executed, and the last one has the value. -/
theorem eval_of_passes : ∀ (e : CondExpr) (k : Nat), Passes σ k e.branches →
    e.eval σ k =
      (List.range' k e.size, .ofOutcome (σ (k + e.branches.length)) == e.sense)
  | operator, k, _ => by
    rw [eval, size, sense, branches, List.length_nil, Nat.add_zero, List.range'_one]
    cases σ k <;> rfl
  | complex c fst rest, k, h => by
    rw [branches, passes_append] at h
    have first := eval_of_passes fst k h.1
    have others := evalRest_of_passes c rest (k + fst.branches.length) fst.sense h.2
    rw [eval, first, size, branches, sense, List.length_append, ← Nat.add_assoc]
    simp only
    rw [size_eq fst, ← Nat.add_assoc, others, ← size_eq fst]
    rw [Nat.add_assoc k, ← size_eq fst, List.range'_append_1]
  | not e, k, h => by
    rw [branches] at h
    rw [eval, eval_of_passes e k h, size, branches, sense]
    cases Branch.ofOutcome (σ (k + e.branches.length)) <;> cases e.sense <;> rfl

theorem evalRest_of_passes (c : Connective) : ∀ (es : List CondExpr) (p : Nat) (s : Branch),
    Passes σ p (branchesRest c es s) →
    evalRest σ c es (p + 1) (.ofOutcome (σ p) == s) =
      (List.range' (p + 1) (sizeRest es),
        .ofOutcome (σ (p + (branchesRest c es s).length)) == senseRest es s)
  | [], _, _, _ => rfl
  | e :: es, p, s, h => by
    rw [branchesRest, Passes, passes_append] at h
    obtain ⟨on, passes, others⟩ := h
    have first := eval_of_passes e (p + 1) passes
    have others := evalRest_of_passes c es (p + 1 + e.branches.length) e.sense others
    have total : p + 1 + e.branches.length + (branchesRest c es e.sense).length =
        p + (branchesRest c (e :: es) s).length := by
      simp only [branchesRest, List.length_cons, List.length_append]
      omega
    rw [total] at others
    rw [evalRest, if_pos ((c.unit_iff s _).mpr on), first]
    simp only
    rw [size_eq e, ← Nat.add_assoc, others, Nat.add_assoc (p + 1), ← size_eq e,
      List.range'_append_1, senseRest, sizeRest]

end

mutual

theorem eval_of_not_passes : ∀ (e : CondExpr) (k : Nat), ¬Passes σ k e.branches →
    (e.eval σ k).1.length < e.size ∧ Stuck σ k e.branches (e.eval σ k).1
  | operator, _, h => absurd trivial h
  | complex c fst rest, k, h => by
    rw [branches, passes_append] at h
    rw [eval, size, branches, List.length_append]
    by_cases passes : Passes σ k fst.branches
    · have first := eval_of_passes fst k passes
      obtain ⟨short, stuck⟩ := evalRest_of_not_passes c rest (k + fst.branches.length) fst.sense
        fun others => h ⟨passes, others⟩
      rw [first, List.length_range', size_eq fst, ← Nat.add_assoc]
      constructor
      · exact Nat.add_lt_add_left short _
      · apply Stuck.append_right _ stuck
        intro x hx
        rcases List.mem_cons.mp hx with rfl | hx
        · exact List.mem_append_left _ (List.mem_range'_1.mpr ⟨by omega, by omega⟩)
        · exact List.mem_append_right _ hx
    · obtain ⟨short, stuck⟩ := eval_of_not_passes fst k passes
      constructor
      · exact Nat.add_lt_add_of_lt_of_le short (length_evalRest_le c rest _ _)
      · exact stuck.append_left _ _
  | not e, k, h => eval_of_not_passes e k h

theorem evalRest_of_not_passes (c : Connective) : ∀ (es : List CondExpr) (p : Nat) (s : Branch),
    ¬Passes σ p (branchesRest c es s) →
    let r := evalRest σ c es (p + 1) (.ofOutcome (σ p) == s)
    r.1.length < sizeRest es ∧ Stuck σ p (branchesRest c es s) (p :: r.1)
  | [], _, _, h => absurd trivial h
  | e :: es, p, s, h => by
    rw [branchesRest, Passes, passes_append] at h
    simp only [evalRest, sizeRest, branchesRest]
    by_cases on : Branch.ofOutcome (σ p) = s.through c.onward
    · rw [if_pos ((c.unit_iff s _).mpr on), List.length_append]
      by_cases passes : Passes σ (p + 1) e.branches
      · have first := eval_of_passes e (p + 1) passes
        obtain ⟨short, stuck⟩ := evalRest_of_not_passes c es (p + 1 + e.branches.length) e.sense
          fun others => h ⟨on, passes, others⟩
        rw [first, List.length_range', size_eq e, ← Nat.add_assoc]
        constructor
        · exact Nat.add_lt_add_left short _
        · apply Stuck.append_right [s.through c.onward] (Stuck.append_right _ stuck fun _ => id)
          intro x hx
          rcases List.mem_cons.mp hx with rfl | hx
          · exact List.mem_cons_of_mem _
              (List.mem_append_left _ (List.mem_range'_1.mpr ⟨by omega, by omega⟩))
          · exact List.mem_cons_of_mem _ (List.mem_append_right _ hx)
      · obtain ⟨short, stuck⟩ := eval_of_not_passes e (p + 1) passes
        constructor
        · exact Nat.add_lt_add_of_lt_of_le short (length_evalRest_le c es _ _)
        · exact Stuck.append_right [s.through c.onward] (stuck.append_left _ _)
            fun _ => List.mem_cons_of_mem _
    · rw [if_neg fun v => on ((c.unit_iff s _).mp v)]
      have size := size_eq e
      exact ⟨by simp only [List.length_nil]; omega, 0, s.through c.onward, rfl, on,
        List.mem_cons_self⟩

end

theorem skipsNothing_iff (e : CondExpr) (k : Nat) :
    e.SkipsNothing σ k ↔ Passes σ k e.branches := by
  constructor
  · intro skips
    by_contra passes
    exact absurd skips (Nat.ne_of_lt (eval_of_not_passes e k passes).1)
  · intro passes
    rw [SkipsNothing, eval_of_passes e k passes, List.length_range']

end CondExpr

/-! ## Runs -/

namespace Operators

variable {m : Operators} {t : Sign}

theorem successor_append (m : Operators) (o : CustomOperator) (more : Operators) (v : Bool) :
    (m ++ o :: more).successor m.length v = o.branch (.ofOutcome v) := by
  simp [successor]

theorem branch_setBranch_new (b b' : Branch) (op : Option Sign) :
    (CustomOperator.new.setBranch b op).branch b' = if b' = b then op else none := by
  cases b <;> cases b' <;> rfl

theorem follows_chain (bs : List Branch) (o : CustomOperator) (m : Operators)
    (passes : Passes σ m.length bs)
    (last : o.branch (.ofOutcome (σ (m.length + bs.length))) = some t) :
    (m ++ chain m.length bs o).Follows σ m.length (List.range' m.length (bs.length + 1)) t := by
  induction bs generalizing m with
  | nil =>
    refine ⟨rfl, t, ?_, rfl⟩
    rw [chain, successor_append]
    exact last
  | cons b bs ih =>
    obtain ⟨on, passes⟩ := passes
    have tail := ih (m ++ [CustomOperator.new.setBranch b (some (m.length + 1))])
    simp only [List.length_append, List.length_singleton, List.append_assoc,
      List.singleton_append] at tail
    refine ⟨rfl, m.length + 1, ?_, ?_⟩
    · rw [chain, successor_append, branch_setBranch_new, if_pos on]
    · apply tail passes
      rw [Nat.add_assoc, Nat.add_comm 1]
      exact last

theorem successor_chain (bs : List Branch) (o : CustomOperator) (m : Operators) {i : Nat}
    {b : Branch} (get : bs[i]? = some b) {v : Bool} (ne : .ofOutcome v ≠ b) :
    (m ++ chain m.length bs o).successor (m.length + i) v = none := by
  induction bs generalizing m i with
  | nil => simp at get
  | cons a bs ih =>
    cases i with
    | zero =>
      obtain rfl : a = b := by simpa using get
      refine (successor_append m _ _ v).trans ?_
      rw [branch_setBranch_new, if_neg ne]
    | succ i =>
      have tail := ih (m ++ [CustomOperator.new.setBranch a (some (m.length + 1))])
        (by simpa using get)
      simp only [List.length_append, List.length_singleton, List.append_assoc,
        List.singleton_append] at tail
      rw [chain, ← Nat.add_assoc, Nat.add_right_comm]
      exact tail

theorem Follows.successor {s o : Sign} {os : List Sign} (h : m.Follows σ s os t) (mem : o ∈ os) :
    ∃ s', m.successor o (σ o) = some s' := by
  induction os generalizing s with
  | nil => cases mem
  | cons o' os ih =>
    obtain ⟨-, s', next, rest⟩ := h
    rcases List.mem_cons.mp mem with rfl | mem
    · exact ⟨s', next⟩
    · exact ih rest mem

end Operators

namespace CondExpr

def lastOp (e : CondExpr) (thenFirst : Bool) (t f : Sign) : CustomOperator :=
  if thenFirst then (CustomOperator.new.setBranch e.sense (some t)).setBranch e.sense.other (some f)
  else (CustomOperator.new.setBranch e.sense.other (some f)).setBranch e.sense (some t)

theorem branch_lastOp (e : CondExpr) (thenFirst : Bool) (t f : Sign) (b : Branch) :
    (e.lastOp thenFirst t f).branch b = some (if b == e.sense then t else f) := by
  cases h : e.sense <;> cases b <;> cases thenFirst <;> simp only [lastOp, h] <;> rfl

theorem compile_eq (e : CondExpr) (thenFirst : Bool) (t f : Sign) (m : Operators) :
    (e.compile thenFirst t f m).1.getFirstScpOp = some m.length ∧
      (e.compile thenFirst t f m).2 =
        m ++ Operators.chain m.length e.branches (e.lastOp thenFirst t f) := by
  obtain ⟨mem, spans⟩ := build_spec e m
  have set := fun o b op => Operators.setBranch_chain m e.branches o [] b op
  simp only [List.append_nil] at set
  refine ⟨spans.first, ?_⟩
  rw [compile, mem, lastOp]
  simp only [CodeBlock.setThen, CodeBlock.setElse, spans.set, set, Branch.through]
  split <;> rfl

end CondExpr

/-- The successors in memory lead through what short-circuit evaluation executes, and on
to the target for its value, exactly if the evaluation skips no operator. -/
theorem condition_runs (e : CondExpr) (thenFirst : Bool) (t f : Sign) (m : Operators)
    (σ : Sign → Bool) :
    (∃ first, (e.compile thenFirst t f m).1.getFirstScpOp = some first ∧
      (e.compile thenFirst t f m).2.Follows σ first (e.eval σ m.length).1
        (if (e.eval σ m.length).2 then t else f)) ↔ e.SkipsNothing σ m.length := by
  obtain ⟨first, mem⟩ := e.compile_eq thenFirst t f m
  rw [mem, e.skipsNothing_iff]
  constructor
  · rintro ⟨s, -, follows⟩
    by_contra passes
    obtain ⟨i, b, get, ne, mem⟩ := (e.eval_of_not_passes m.length passes).2
    obtain ⟨s', next⟩ := follows.successor mem
    rw [Operators.successor_chain _ _ _ get ne] at next
    cases next
  · intro passes
    refine ⟨m.length, first, ?_⟩
    rw [e.eval_of_passes m.length passes, e.size_eq]
    exact Operators.follows_chain _ _ _ passes (e.branch_lastOp thenFirst t f _)

/-- `a || b`, when `a` succeeds. -/
theorem condition_runs_fails :
    ∃ (e : CondExpr) (t f : Sign) (m : Operators) (σ : Sign → Bool),
      e = .complex .or .operator [.operator] ∧ m = [] ∧ t = 7 ∧ f = 9 ∧ (∀ s, σ s = true) ∧
      (e.eval σ 0) = ([0], true) ∧ (e.compile true t f m).1.getFirstScpOp = some 0 ∧
      (e.compile true t f m).2.successor 0 (σ 0) = none ∧
      ∀ first, (e.compile true t f m).1.getFirstScpOp = some first →
        ¬(e.compile true t f m).2.Follows σ first (e.eval σ 0).1 t := by
  refine ⟨_, 7, 9, [], fun _ => true, rfl, rfl, rfl, rfl, fun _ => rfl, rfl, rfl, rfl, ?_⟩
  rintro first - ⟨-, s', next, -⟩
  cases next

end ScCore.Scc
