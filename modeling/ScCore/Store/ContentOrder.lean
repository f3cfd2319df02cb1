import ScCore.Store.Memory
import ScCore.Lib.Doubles

/-!
# The order of contents

The comparisons of contents, and when they put two contents in one order.
-/

namespace ScCore.Store

open ScCore.Lib

/-- The numbers of `TCont`. -/
def Content.kind : Content → Nat
  | .empty => 0
  | .string _ => 1
  | .int _ => 2
  | .real _ => 3
  | .data _ => 4
  | .lazy _ => 5

/-- The bytes at `cont.d.ptr`; those of a string and of a URI end in a zero. -/
def Content.block : Content → List UInt8
  | .string bytes => bytes ++ [0]
  | .data bytes => bytes
  | .lazy uri => uri ++ [0]
  | _ => []

/-- An object of the class `Content`. `cont.d.size` has 32 bits, and `pad` is what lies in the
union between it and `cont.d.ptr`. -/
structure ContentObject where
  content : Content
  pad : UInt32
  fits : content.block.length < 2 ^ 32

/-- `memcmp` of the first `n` bytes. -/
def memcmp : Nat → List UInt8 → List UInt8 → Int
  | n + 1, a :: as, b :: bs => if a = b then memcmp n as bs else (a.toNat : Int) - b.toNat
  | _, _, _ => 0

namespace ContentObject

variable (a b : ContentObject)

/-- `cont.d.size`. -/
def size : Nat := a.content.block.length

/-- `cont.i` of a content that keeps bytes: the size and the padding, read as a `long`. -/
def word : Int := (BitVec.ofNat 64 (a.size + 2 ^ 32 * a.pad.toNat)).toInt

/-- `(c_type == TCREAL) ? cont.r : cont.i`, as a double. Contents of the other kinds do not come
here. -/
def double : Option Int :=
  match a.content with
  | .real bits => Double.ofBits bits
  | .int i => some (Double.ofInt i)
  | .lazy _ => some (Double.ofInt a.word)
  | _ => none

def isNumber : Bool := a.content.kind == 2 || a.content.kind == 3

def otherKind : Bool := (!b.isNumber || !a.isNumber) && b.content.kind != a.content.kind

def compare (r : Int → Int → Bool) : Bool :=
  match a.double, b.double with
  | some x, some y => r x y
  | _, _ => false

/-- `Content::operator==`. -/
def eq : Bool :=
  if a.otherKind b then false
  else match a.content with
    | .string _ | .data _ | .lazy _ =>
      if a.size ≠ b.size then false
      else memcmp a.size b.content.block a.content.block == 0
    | .empty => true
    | _ => a.compare b fun x y => x == y

/-- `Content::operator>`. -/
def gt : Bool :=
  if a.otherKind b then b.content.kind < a.content.kind
  else match a.content with
    | .string _ | .data _ =>
      if a.size < b.size then 0 < memcmp a.size a.content.block b.content.block
      else 0 ≤ memcmp b.size a.content.block b.content.block
    | .empty => false
    | _ => a.compare b fun x y => y < x

/-- `Content::operator<`. -/
def lt : Bool :=
  if a.otherKind b then a.content.kind < b.content.kind
  else match a.content with
    | .string _ | .data _ =>
      if a.size < b.size then memcmp a.size a.content.block b.content.block < 0
      else memcmp b.size a.content.block b.content.block ≤ 0
    | .empty => false
    | _ => a.compare b fun x y => x < y

def exact' : Option Int :=
  match a.content with
  | .real bits => Double.ofBits bits
  | .int i => some (Double.units i)
  | _ => none

/-- `<` is the order of the values: of integers and reals as numbers, of strings and data byte
by byte, with a proper beginning smaller. -/
def ByValue : Prop :=
  match a.content, b.content with
  | .string s, .string t => a.lt b = true ↔ s < t
  | .data s, .data t => a.lt b = true ↔ s < t
  | _, _ => ∀ x ∈ a.exact', ∀ y ∈ b.exact', (a.lt b = true ↔ x < y)

/-- The two contents can be told apart by the comparisons: of two byte strings, read with the
closing zero, neither is a beginning of the other; of two numbers neither is NaN, and they do
not become one double unless they are equal; two contents not yet loaded are of one URI when
the first words of their objects are one double. -/
def Comparable : Prop :=
  match a.content, b.content with
  | .lazy u, .lazy v => u = v ↔ a.double = b.double
  | .string s, .string t => ¬ s ++ [0] <+: t ++ [0] ∧ ¬ t ++ [0] <+: s ++ [0]
  | .data s, .data t => ¬ s <+: t ∧ ¬ t <+: s
  | _, _ => a.isNumber = true → b.isNumber = true →
      a.double.isSome = true ∧ b.double.isSome = true ∧
        (a.double = b.double → a.exact' = b.exact')

end ContentObject

/-! ### Byte strings -/

/-- The order of `operator<` on bytes, in which the end of a string is above every byte. -/
def LongFirst : List UInt8 → List UInt8 → Prop
  | _, [] => True
  | [], _ :: _ => False
  | a :: as, b :: bs => a < b ∨ a = b ∧ LongFirst as bs

variable {s t : List UInt8}

theorem LongFirst.trans {u : List UInt8} (first : LongFirst s t) (second : LongFirst t u) :
    LongFirst s u := by
  induction s generalizing t u with
  | nil =>
    cases t with
    | nil => exact second
    | cons b t => exact first.elim
  | cons a s ih =>
    cases u with
    | nil => trivial
    | cons c u =>
      cases t with
      | nil => exact second.elim
      | cons b t =>
        obtain less | ⟨rfl, first⟩ := first <;> obtain less' | ⟨rfl, second⟩ := second
        · exact .inl (UInt8.lt_trans less less')
        · exact .inl less
        · exact .inl less'
        · exact .inr ⟨rfl, ih first second⟩

theorem longFirst_total (s t : List UInt8) : LongFirst s t ∨ LongFirst t s := by
  induction s generalizing t with
  | nil => cases t <;> exact .inr trivial
  | cons a s ih =>
    cases t with
    | nil => exact .inl trivial
    | cons b t =>
      by_cases less : a < b
      · exact .inl (.inl less)
      · obtain greater | rfl := UInt8.lt_or_eq_of_le (UInt8.not_lt.mp less)
        · exact .inr (.inl greater)
        · exact (ih t).imp (fun h => .inr ⟨rfl, h⟩) fun h => .inr ⟨rfl, h⟩

theorem LongFirst.antisymm (first : LongFirst s t) (second : LongFirst t s) : s = t := by
  induction s generalizing t with
  | nil =>
    cases t with
    | nil => rfl
    | cons b t => exact first.elim
  | cons a s ih =>
    cases t with
    | nil => exact second.elim
    | cons b t =>
      obtain less | ⟨rfl, first⟩ := first <;> obtain less' | ⟨same, second⟩ := second
      · exact absurd less' (UInt8.lt_asymm less)
      · exact absurd less (same ▸ UInt8.lt_irrefl _)
      · exact absurd less' (UInt8.lt_irrefl _)
      · rw [ih first second]

theorem longFirst_of_starts (starts : t <+: s) : LongFirst s t := by
  obtain ⟨rest, rfl⟩ := starts
  induction t with
  | nil => cases rest <;> trivial
  | cons b t ih => exact .inr ⟨rfl, ih⟩

/-- Where neither string is a beginning of the other, it is the order with the shorter first. -/
theorem longFirst_iff_lt (apart : ¬ s <+: t) (apart' : ¬ t <+: s) : LongFirst s t ↔ s < t := by
  induction s generalizing t with
  | nil => exact absurd (List.nil_prefix) apart
  | cons a s ih =>
    cases t with
    | nil => exact absurd (List.nil_prefix) apart'
    | cons b t =>
      rw [List.cons_lt_cons_iff, LongFirst]
      refine or_congr_right (and_congr_right fun same => ?_)
      subst same
      exact ih (fun starts => apart (List.cons_prefix_cons.mpr ⟨rfl, starts⟩))
        fun starts => apart' (List.cons_prefix_cons.mpr ⟨rfl, starts⟩)

theorem closed_lt_iff : s ++ [0] < t ++ [0] ↔ s < t := by
  induction s generalizing t with
  | nil =>
    cases t with
    | nil => simp
    | cons b t =>
      refine iff_of_true (List.cons_lt_cons_iff.mpr ?_) (List.nil_lt_cons b t)
      obtain rfl | other := eq_or_ne b 0
      · exact .inr ⟨rfl, by cases t <;> exact List.nil_lt_cons _ _⟩
      · exact .inl (UInt8.pos_iff_ne_zero.mpr other)
  | cons a s ih =>
    cases t with
    | nil =>
      refine iff_of_false (fun less => ?_) (List.not_lt_nil _)
      obtain less | ⟨-, less⟩ := List.cons_lt_cons_iff.mp less
      · exact UInt8.not_lt_zero less
      · exact List.not_lt_nil _ less
    | cons b t =>
      rw [List.cons_append, List.cons_append, List.cons_lt_cons_iff, List.cons_lt_cons_iff, ih]

theorem memcmp_neg_iff (shorter : s.length < t.length) :
    memcmp s.length s t < 0 ↔ LongFirst s t := by
  induction s generalizing t with
  | nil =>
    cases t with
    | nil => exact absurd shorter (Nat.lt_irrefl 0)
    | cons b t => simp [memcmp, LongFirst]
  | cons a s ih =>
    cases t with
    | nil => exact absurd shorter (Nat.not_lt_zero _)
    | cons b t =>
      rw [List.length_cons, memcmp, LongFirst]
      split
      · rename_i same
        subst same
        rw [ih (Nat.lt_of_succ_lt_succ shorter)]
        simp
      · rename_i other
        rw [or_iff_left (fun both => other both.1), UInt8.lt_iff_toNat_lt]
        omega

theorem memcmp_nonpos_iff (longer : t.length ≤ s.length) :
    memcmp t.length s t ≤ 0 ↔ LongFirst s t := by
  induction s generalizing t with
  | nil =>
    obtain rfl := List.eq_nil_of_length_eq_zero (Nat.le_zero.mp longer)
    simp [memcmp, LongFirst]
  | cons a s ih =>
    cases t with
    | nil => simp [memcmp, LongFirst]
    | cons b t =>
      rw [List.length_cons, memcmp, LongFirst]
      split
      · rename_i same
        subst same
        rw [ih (Nat.le_of_succ_le_succ longer)]
        simp
      · rename_i other
        have differ : a.toNat ≠ b.toNat := fun same => other (UInt8.toNat_inj.mp same)
        rw [or_iff_left (fun both => other both.1), UInt8.lt_iff_toNat_lt]
        omega

theorem memcmp_swap (n : Nat) (s t : List UInt8) : memcmp n t s = -memcmp n s t := by
  induction n generalizing s t with
  | zero => simp [memcmp]
  | succ n ih =>
    cases s with
    | nil => simp [memcmp]
    | cons a s =>
      cases t with
      | nil => simp [memcmp]
      | cons b t =>
        rw [memcmp, memcmp]
        by_cases same : a = b
        · rw [if_pos same, if_pos same.symm, ih]
        · rw [if_neg same, if_neg (Ne.symm same)]
          omega

theorem memcmp_eq_zero_iff (shorter : s.length ≤ t.length) : memcmp s.length s t = 0 ↔ s <+: t := by
  induction s generalizing t with
  | nil => simp [memcmp]
  | cons a s ih =>
    cases t with
    | nil => exact absurd shorter (Nat.not_succ_le_zero _)
    | cons b t =>
      rw [List.length_cons, memcmp, List.cons_prefix_cons]
      split
      · rename_i same
        rw [ih (Nat.le_of_succ_le_succ shorter), and_iff_right same]
      · rename_i other
        have differ : a.toNat ≠ b.toNat := fun same => other (UInt8.toNat_inj.mp same)
        exact iff_of_false (by omega) fun both => other both.1

theorem not_lt_of_starts (starts : s <+: t) : ¬ t < s := by
  induction s generalizing t with
  | nil => exact List.not_lt_nil t
  | cons a s ih =>
    obtain ⟨rest, rfl⟩ := starts
    rw [List.cons_append, List.cons_lt_cons_iff]
    rintro (less | ⟨-, less⟩)
    · exact UInt8.lt_irrefl a less
    · exact ih (List.prefix_append s rest) less

namespace ContentObject

variable (a b c : ContentObject)

/-! ### The comparisons by kinds -/

def rank : Nat :=
  match a.content with
  | .empty => 0
  | .string _ => 1
  | .int _ | .real _ => 2
  | .data _ => 3
  | .lazy _ => 4

theorem otherKind_eq : a.otherKind b = decide (a.rank ≠ b.rank) := by
  rcases a with ⟨_ | _, _, _⟩ <;> rcases b with ⟨_ | _, _, _⟩ <;> rfl

variable {a b c}

theorem kind_lt_iff (other : a.rank ≠ b.rank) :
    a.content.kind < b.content.kind ↔ a.rank < b.rank := by
  rcases a with ⟨_ | _, _, _⟩ <;> rcases b with ⟨_ | _, _, _⟩ <;>
    first | exact absurd rfl other | exact Iff.rfl | simp [Content.kind, rank]

theorem lt_of_rank_ne (other : a.rank ≠ b.rank) : a.lt b = true ↔ a.rank < b.rank := by
  rw [lt, if_pos (by simpa [otherKind_eq] using other), decide_eq_true_iff, kind_lt_iff other]

theorem gt_of_rank_ne (other : a.rank ≠ b.rank) : a.gt b = true ↔ b.rank < a.rank := by
  rw [gt, if_pos (by simpa [otherKind_eq] using other), decide_eq_true_iff,
    kind_lt_iff other.symm]

theorem eq_of_rank_ne (other : a.rank ≠ b.rank) : a.eq b = false := by
  rw [eq, if_pos (by simpa [otherKind_eq] using other)]

def Bytes (a b : ContentObject) : Prop := a.rank = b.rank ∧ (a.rank = 1 ∨ a.rank = 3)

def Doubles (a b : ContentObject) : Prop := a.rank = b.rank ∧ (a.rank = 2 ∨ a.rank = 4)

theorem Bytes.symm (bytes : a.Bytes b) : b.Bytes a := by
  obtain ⟨same, kind⟩ := bytes
  exact ⟨same.symm, same ▸ kind⟩

theorem Doubles.symm (doubles : a.Doubles b) : b.Doubles a := by
  obtain ⟨same, kind⟩ := doubles
  exact ⟨same.symm, same ▸ kind⟩

theorem Bytes.lt_iff (bytes : a.Bytes b) :
    a.lt b = true ↔ LongFirst a.content.block b.content.block := by
  have code : a.lt b = if a.size < b.size
      then decide (memcmp a.size a.content.block b.content.block < 0)
      else decide (memcmp b.size a.content.block b.content.block ≤ 0) := by
    rw [lt, if_neg (by simp [otherKind_eq, bytes.1])]
    rcases a with ⟨_ | _, _, _⟩ <;> first | rfl | (obtain ⟨-, h | h⟩ := bytes <;> cases h)
  rw [code]
  split
  · rename_i shorter
    rw [decide_eq_true_iff, size, memcmp_neg_iff shorter]
  · rename_i longer
    rw [decide_eq_true_iff, size, memcmp_nonpos_iff (not_lt.mp longer)]

theorem Bytes.gt_iff (bytes : a.Bytes b)
    (apart : ¬ a.content.block <+: b.content.block)
    (apart' : ¬ b.content.block <+: a.content.block) :
    a.gt b = true ↔ LongFirst b.content.block a.content.block := by
  have code : a.gt b = if a.size < b.size
      then decide (0 < memcmp a.size a.content.block b.content.block)
      else decide (0 ≤ memcmp b.size a.content.block b.content.block) := by
    rw [gt, if_neg (by simp [otherKind_eq, bytes.1])]
    rcases a with ⟨_ | _, _, _⟩ <;> first | rfl | (obtain ⟨-, h | h⟩ := bytes <;> cases h)
  rw [code]
  split
  · rename_i shorter
    have differ := (memcmp_eq_zero_iff shorter.le).not.mpr apart
    rw [decide_eq_true_iff, ← memcmp_nonpos_iff shorter.le,
      memcmp_swap _ a.content.block b.content.block, size]
    omega
  · rename_i longer
    have longer : b.content.block.length ≤ a.content.block.length := not_lt.mp longer
    have differ := (memcmp_eq_zero_iff longer).not.mpr apart'
    rw [decide_eq_true_iff, memcmp_swap _ b.content.block a.content.block, size]
    obtain same | shorter := longer.eq_or_lt
    · rw [← memcmp_nonpos_iff same.ge, ← same]
      omega
    · rw [← memcmp_neg_iff shorter]
      omega

theorem memcmp_self_length_eq {s t : List UInt8} (same : s.length = t.length) :
    memcmp s.length t s = 0 ↔ s = t := by
  rw [memcmp_swap, neg_eq_zero, memcmp_eq_zero_iff same.le]
  exact ⟨fun starts => starts.eq_of_length same, fun h => h ▸ List.prefix_rfl⟩

theorem eq_block_iff (same : a.rank = b.rank) (keeps : a.rank = 1 ∨ a.rank = 3 ∨ a.rank = 4) :
    a.eq b = true ↔ a.content.block = b.content.block := by
  have code : a.eq b = if a.size ≠ b.size then false
      else memcmp a.size b.content.block a.content.block == 0 := by
    rw [eq, if_neg (by simp [otherKind_eq, same])]
    rcases a with ⟨_ | _, _, _⟩ <;> first | rfl | (obtain h | h | h := keeps <;> cases h)
  rw [code]
  split
  · rename_i sizes
    exact iff_of_false Bool.false_ne_true fun h => sizes (congrArg List.length h)
  · rename_i sizes
    rw [beq_iff_eq, size, memcmp_self_length_eq (not_not.mp sizes)]

theorem compare_iff {r : Int → Int → Bool} :
    a.compare b r = true ↔ ∃ x, a.double = some x ∧ ∃ y, b.double = some y ∧ r x y = true := by
  rw [compare]
  split
  · rename_i x y hx hy
    simp [hx, hy]
  · rename_i none
    exact iff_of_false Bool.false_ne_true fun ⟨x, hx, y, hy, _⟩ => none x y hx hy

theorem Doubles.lt_eq (doubles : a.Doubles b) : a.lt b = a.compare b fun x y => x < y := by
  rw [lt, if_neg (by simp [otherKind_eq, doubles.1])]
  rcases a with ⟨_ | _, _, _⟩ <;> first | rfl | (obtain ⟨-, h | h⟩ := doubles <;> cases h)

theorem Doubles.gt_eq (doubles : a.Doubles b) : a.gt b = a.compare b fun x y => y < x := by
  rw [gt, if_neg (by simp [otherKind_eq, doubles.1])]
  rcases a with ⟨_ | _, _, _⟩ <;> first | rfl | (obtain ⟨-, h | h⟩ := doubles <;> cases h)

theorem eq_of_numbers (same : a.rank = b.rank) (number : a.rank = 2) :
    a.eq b = a.compare b fun x y => x == y := by
  rw [eq, if_neg (by simp [otherKind_eq, same])]
  rcases a with ⟨_ | _, _, _⟩ <;> first | rfl | cases number

theorem rank_cases (a : ContentObject) : a.rank = 0 ∨ (a.rank = 1 ∨ a.rank = 3) ∨
    (a.rank = 2 ∨ a.rank = 4) := by
  rcases a with ⟨_ | _, _, _⟩ <;> simp [rank]

theorem of_empties (same : a.rank = b.rank) (empty : a.rank = 0) :
    a.lt b = false ∧ a.gt b = false ∧ a.eq b = true := by
  have kind : a.otherKind b = false := by simp [otherKind_eq, same]
  simp only [lt, gt, eq, kind, Bool.false_eq_true, if_false]
  rcases a with ⟨_ | _, _, _⟩ <;> first | exact ⟨rfl, rfl, rfl⟩ | cases empty

theorem lt_trans (first : a.lt b = true) (second : b.lt c = true) : a.lt c = true := by
  have ranks : ∀ {x y : ContentObject}, x.lt y = true → x.rank ≤ y.rank := by
    intro x y less
    by_contra above
    exact above ((lt_of_rank_ne (by omega)).mp less).le
  have le := ranks first
  have le' := ranks second
  by_cases other : a.rank ≠ c.rank
  · exact (lt_of_rank_ne other).mpr (by omega)
  · have same : a.rank = b.rank := by omega
    have same' : b.rank = c.rank := by omega
    obtain empty | bytes | doubles := a.rank_cases
    · rw [(of_empties same empty).1] at first
      cases first
    · have ab : a.Bytes b := ⟨same, bytes⟩
      have bc : b.Bytes c := ⟨same', same ▸ bytes⟩
      have ac : a.Bytes c := ⟨same.trans same', bytes⟩
      exact ac.lt_iff.mpr ((ab.lt_iff.mp first).trans (bc.lt_iff.mp second))
    · have ab : a.Doubles b := ⟨same, doubles⟩
      have bc : b.Doubles c := ⟨same', same ▸ doubles⟩
      have ac : a.Doubles c := ⟨same.trans same', doubles⟩
      rw [ab.lt_eq, compare_iff] at first
      rw [bc.lt_eq, compare_iff] at second
      rw [ac.lt_eq, compare_iff]
      obtain ⟨x, hx, y, hy, less⟩ := first
      obtain ⟨y', hy', z, hz, less'⟩ := second
      obtain rfl := Option.some.inj (hy.symm.trans hy')
      rw [decide_eq_true_iff] at less less'
      exact ⟨x, hx, z, hz, decide_eq_true_iff.mpr (less.trans less')⟩

/-! ### Where the comparisons are an order -/

theorem Comparable.symm (comparable : a.Comparable b) : b.Comparable a := by
  rcases a with ⟨_ | _, _, _⟩ <;> rcases b with ⟨_ | _, _, _⟩ <;>
    simp only [Comparable] at comparable ⊢ <;> grind

theorem Bytes.apart (bytes : a.Bytes b) : a.Comparable b ↔
    ¬ a.content.block <+: b.content.block ∧ ¬ b.content.block <+: a.content.block := by
  obtain ⟨same, kind⟩ := bytes
  rcases a with ⟨_ | _, _, _⟩ <;> rcases b with ⟨_ | _, _, _⟩ <;>
    first | exact Iff.rfl | (cases same; done) | (obtain h | h := kind <;> cases h)

theorem Bytes.byValue_iff (bytes : a.Bytes b) :
    a.ByValue b ↔ (a.lt b = true ↔ a.content.block < b.content.block) := by
  obtain ⟨same, kind⟩ := bytes
  rcases a with ⟨_ | _, _, _⟩ <;> rcases b with ⟨_ | _, _, _⟩ <;>
    first
    | exact Iff.rfl
    | exact iff_congr Iff.rfl closed_lt_iff.symm
    | (cases same; done)
    | (obtain h | h := kind <;> cases h)

theorem double_eq_none_iff (number : a.rank = 2) : a.double = none ↔ a.exact' = none := by
  rcases a with ⟨_ | _, _, _⟩ <;> first | (cases number; done) | simp [double, exact']

theorem double_mono (number : a.rank = 2) (number' : b.rank = 2) {x y u v : Int}
    (hx : a.exact' = some x) (hy : b.exact' = some y) (hu : a.double = some u)
    (hv : b.double = some v) (le : x ≤ y) : u ≤ v := by
  rcases a with ⟨_ | _ | _ | bits | _ | _, _, _⟩ <;> try (cases number; done)
  all_goals rcases b with ⟨_ | _ | _ | bits' | _ | _, _, _⟩ <;> try (cases number'; done)
  · obtain rfl := Option.some.inj hx
    obtain rfl := Option.some.inj hy
    obtain rfl := Option.some.inj hu
    obtain rfl := Option.some.inj hv
    exact Double.ofInt_mono (le_of_mul_le_mul_right le (by positivity))
  · obtain rfl := Option.some.inj hx
    obtain rfl := Option.some.inj hu
    obtain rfl := Option.some.inj (hy.symm.trans hv)
    exact Double.ofInt_le (Double.ofBits_short hy) le
  · obtain rfl := Option.some.inj hy
    obtain rfl := Option.some.inj hv
    obtain rfl := Option.some.inj (hx.symm.trans hu)
    exact Double.le_ofInt (Double.ofBits_short hx) le
  · obtain rfl := Option.some.inj (hx.symm.trans hu)
    obtain rfl := Option.some.inj (hy.symm.trans hv)
    exact le

structure Agreeing (a b : ContentObject) : Prop where
  one : [a.lt b, a.eq b, b.lt a].count true = 1
  value : a.ByValue b
  value' : b.ByValue a

theorem count_one_iff {p q r : Prop} {x y z : Bool} (hx : x = true ↔ p) (hy : y = true ↔ q)
    (hz : z = true ↔ r) :
    [x, y, z].count true = 1 ↔ (p ∧ ¬ q ∧ ¬ r) ∨ (¬ p ∧ q ∧ ¬ r) ∨ (¬ p ∧ ¬ q ∧ r) := by
  rw [← hx, ← hy, ← hz]
  cases x <;> cases y <;> cases z <;> simp

theorem Bytes.agreeing_iff (bytes : a.Bytes b) : a.Agreeing b ↔ a.Comparable b := by
  rw [bytes.apart]
  constructor
  · intro agreeing
    refine ⟨fun starts => ?_, fun starts => ?_⟩
    · exact not_lt_of_starts starts ((bytes.symm.byValue_iff.mp agreeing.value').mp
        (bytes.symm.lt_iff.mpr (longFirst_of_starts starts)))
    · exact not_lt_of_starts starts ((bytes.byValue_iff.mp agreeing.value).mp
        (bytes.lt_iff.mpr (longFirst_of_starts starts)))
  · rintro ⟨apart, apart'⟩
    have differ : a.content.block ≠ b.content.block := fun same => apart (same ▸ List.prefix_rfl)
    have unequal : a.eq b = true ↔ False := by
      rw [eq_block_iff bytes.1 (by obtain ⟨-, h | h⟩ := bytes <;> simp [h]), iff_false]
      exact differ
    refine ⟨?_, bytes.byValue_iff.mpr ?_, bytes.symm.byValue_iff.mpr ?_⟩
    · rw [count_one_iff bytes.lt_iff unequal bytes.symm.lt_iff]
      obtain less | greater := longFirst_total a.content.block b.content.block
      · exact .inl ⟨less, id, fun greater => differ (less.antisymm greater)⟩
      · exact .inr (.inr ⟨fun less => differ (less.antisymm greater), id, greater⟩)
    · exact bytes.lt_iff.trans (longFirst_iff_lt apart apart')
    · exact bytes.symm.lt_iff.trans (longFirst_iff_lt apart' apart)

theorem byValue_iff (other : a.rank ≠ b.rank ∨ a.rank ≠ 1 ∧ a.rank ≠ 3) :
    a.ByValue b ↔ ∀ x ∈ a.exact', ∀ y ∈ b.exact', (a.lt b = true ↔ x < y) := by
  rcases a with ⟨_ | _, _, _⟩ <;> rcases b with ⟨_ | _, _, _⟩ <;>
    first
    | exact Iff.rfl
    | (obtain h | ⟨h, h'⟩ := other <;> first | exact absurd rfl h | exact absurd rfl h')

theorem exact'_eq_none (word : a.rank ≠ 2) : a.exact' = none := by
  rcases a with ⟨_ | _, _, _⟩ <;> first | rfl | exact absurd rfl word

theorem numbers_comparable (number : a.rank = 2) (number' : b.rank = 2) :
    a.Comparable b ↔ a.double.isSome = true ∧ b.double.isSome = true ∧
      (a.double = b.double → a.exact' = b.exact') := by
  have both : a.isNumber = true ∧ b.isNumber = true := by
    constructor
    · rcases a with ⟨_ | _, _, _⟩ <;> first | rfl | cases number
    · rcases b with ⟨_ | _, _, _⟩ <;> first | rfl | cases number'
  have unfolded : a.Comparable b ↔ (a.isNumber = true → b.isNumber = true →
      a.double.isSome = true ∧ b.double.isSome = true ∧
        (a.double = b.double → a.exact' = b.exact')) := by
    rcases a with ⟨_ | _, _, _⟩ <;> try (cases number; done)
    all_goals rfl
  rw [unfolded]
  exact ⟨fun h => h both.1 both.2, fun h _ _ => h⟩

theorem numbers_agreeing_iff (number : a.rank = 2) (number' : b.rank = 2) :
    a.Agreeing b ↔ a.Comparable b := by
  have same : a.rank = b.rank := number.trans number'.symm
  have ab : a.Doubles b := ⟨same, .inl number⟩
  have code := ab.lt_eq
  have code' := ab.symm.lt_eq
  have equal := eq_of_numbers same number
  rw [numbers_comparable number number']
  cases hu : a.double with
  | none =>
    have nothing : ∀ r, a.compare b r = false ∧ b.compare a r = false := fun r => by
      simp [compare, hu]
    refine iff_of_false (fun agreeing => ?_) (by simp)
    have one := agreeing.one
    rw [code, code', equal, (nothing _).1, (nothing _).1, (nothing _).2] at one
    cases one
  | some u =>
    cases hv : b.double with
    | none =>
      have nothing : ∀ r, a.compare b r = false ∧ b.compare a r = false := fun r => by
        simp [compare, hv]
      refine iff_of_false (fun agreeing => ?_) (by simp)
      have one := agreeing.one
      rw [code, code', equal, (nothing _).1, (nothing _).1, (nothing _).2] at one
      cases one
    | some v =>
      obtain ⟨x, hx⟩ := Option.ne_none_iff_exists'.mp
        ((double_eq_none_iff number).not.mp (by simp [hu]))
      obtain ⟨y, hy⟩ := Option.ne_none_iff_exists'.mp
        ((double_eq_none_iff number').not.mp (by simp [hv]))
      have less : a.lt b = true ↔ u < v := by simp [code, compare, hu, hv]
      have greater : b.lt a = true ↔ v < u := by simp [code', compare, hu, hv]
      have equal : a.eq b = true ↔ u = v := by simp [equal, compare, hu, hv]
      have value : a.ByValue b ↔ (u < v ↔ x < y) := by
        rw [byValue_iff (.inr (by omega)), ← less]
        simp [hx, hy]
      have value' : b.ByValue a ↔ (v < u ↔ y < x) := by
        rw [byValue_iff (.inr (by omega)), ← greater]
        simp [hx, hy]
      have mono := double_mono number number' hx hy hu hv
      have mono' := double_mono number' number hy hx hv hu
      have one : [a.lt b, a.eq b, b.lt a].count true = 1 := by
        rw [count_one_iff less equal greater]
        omega
      rw [hx, hy]
      refine ⟨fun agreeing => ⟨rfl, rfl, fun h => ?_⟩, fun ⟨_, _, apart⟩ => ⟨one, ?_, ?_⟩⟩
      · have forth := value.mp agreeing.value
        have back := value'.mp agreeing.value'
        obtain rfl := Option.some.inj h
        congr 1
        omega
      · rw [value]
        simp only [Option.some.injEq] at apart
        omega
      · rw [value']
        simp only [Option.some.injEq] at apart
        omega

theorem lazies_agreeing_iff (lazy : a.rank = 4) (lazy' : b.rank = 4) :
    a.Agreeing b ↔ a.Comparable b := by
  have same : a.rank = b.rank := lazy.trans lazy'.symm
  have ab : a.Doubles b := ⟨same, .inr lazy⟩
  have equal := eq_block_iff same (.inr (.inr lazy))
  have value : a.ByValue b := (byValue_iff (.inr (by omega))).mpr <| by
    simp [exact'_eq_none (a := a) (by omega)]
  have value' : b.ByValue a := (byValue_iff (.inr (by omega))).mpr <| by
    simp [exact'_eq_none (a := b) (by omega)]
  rcases a with ⟨_ | _ | _ | _ | _ | uri, pad, fits⟩ <;> try cases lazy
  rcases b with ⟨_ | _ | _ | _ | _ | uri', pad', fits'⟩ <;> try cases lazy'
  generalize hx : ContentObject.mk (.lazy uri) pad fits = x at *
  generalize hy : ContentObject.mk (.lazy uri') pad' fits' = y at *
  have hu : x.double = some (Double.ofInt x.word) := by rw [← hx]; rfl
  have hv : y.double = some (Double.ofInt y.word) := by rw [← hy]; rfl
  have less : x.lt y = true ↔ Double.ofInt x.word < Double.ofInt y.word := by
    simp [ab.lt_eq, compare, hu, hv]
  have greater : y.lt x = true ↔ Double.ofInt y.word < Double.ofInt x.word := by
    simp [ab.symm.lt_eq, compare, hu, hv]
  have equal : x.eq y = true ↔ uri = uri' := by
    rw [equal, ← hx, ← hy, Content.block, Content.block, List.append_left_inj]
  have comparable : x.Comparable y ↔
      (uri = uri' ↔ Double.ofInt x.word = Double.ofInt y.word) := by
    rw [← hx, ← hy]
    exact iff_congr Iff.rfl Option.some_inj
  rw [comparable]
  have one := count_one_iff less equal greater
  have some := lt_trichotomy (Double.ofInt x.word) (Double.ofInt y.word)
  refine ⟨fun agreeing => ?_, fun alike => ⟨one.mpr ?_, value, value'⟩⟩
  · have exclusive := one.mp agreeing.one
    grind
  · grind

theorem comparable_of_other (other : a.rank ≠ b.rank ∨ a.rank = 0) : a.Comparable b := by
  rcases a with ⟨_ | _, _, _⟩ <;> rcases b with ⟨_ | _, _, _⟩ <;>
    first
    | exact fun number => absurd number Bool.false_ne_true
    | exact fun _ number => absurd number Bool.false_ne_true
    | (obtain h | h := other <;> first | exact absurd rfl h | cases h)

theorem other_agreeing (other : a.rank ≠ b.rank) : a.Agreeing b := by
  have none : ∀ x ∈ a.exact', ∀ y ∈ b.exact', False := by
    intro x hx y hy
    have number : a.rank = 2 := by
      by_contra word
      rw [exact'_eq_none word] at hx
      cases hx
    rw [exact'_eq_none (number ▸ other.symm)] at hy
    cases hy
  refine ⟨?_, (byValue_iff (.inl other)).mpr fun x hx y hy => (none x hx y hy).elim,
    (byValue_iff (.inl other.symm)).mpr fun y hy x hx => (none x hx y hy).elim⟩
  have unequal : a.eq b = true ↔ False := by simp [eq_of_rank_ne other]
  rw [count_one_iff (lt_of_rank_ne other) unequal (lt_of_rank_ne other.symm)]
  obtain less | greater := Nat.lt_or_gt_of_ne other
  · exact .inl ⟨less, id, by omega⟩
  · exact .inr (.inr ⟨by omega, id, greater⟩)

theorem empties_agreeing (same : a.rank = b.rank) (empty : a.rank = 0) : a.Agreeing b := by
  obtain ⟨less, -, equal⟩ := of_empties same empty
  obtain ⟨greater, -, -⟩ := of_empties same.symm (same ▸ empty)
  have none := exact'_eq_none (a := a) (by omega)
  have none' := exact'_eq_none (a := b) (by omega)
  refine ⟨by rw [less, equal, greater]; rfl, (byValue_iff (.inr (by omega))).mpr ?_,
    (byValue_iff (.inr (by omega))).mpr ?_⟩
  · simp [none]
  · simp [none']

/-- Two contents are compared as one order would when, and only when, they are comparable. -/
theorem agreeing_iff_comparable : a.Agreeing b ↔ a.Comparable b := by
  by_cases same : a.rank = b.rank
  · obtain empty | bytes | number | lazy := a.rank_cases
    · exact iff_of_true (empties_agreeing same empty) (comparable_of_other (.inr empty))
    · exact Bytes.agreeing_iff ⟨same, bytes⟩
    · exact numbers_agreeing_iff number (same ▸ number)
    · exact lazies_agreeing_iff lazy (same ▸ lazy)
  · exact iff_of_true (other_agreeing same) (comparable_of_other (.inl same))

/-! ### The other operators -/

theorem eq_symm (a b : ContentObject) : a.eq b = b.eq a := by
  by_cases same : a.rank = b.rank
  · obtain empty | bytes | number | lazy := a.rank_cases
    · rw [(of_empties same empty).2.2, (of_empties same.symm (same ▸ empty)).2.2]
    · rw [Bool.eq_iff_iff, eq_block_iff same (by omega), eq_block_iff same.symm (by omega)]
      exact eq_comm
    · rw [Bool.eq_iff_iff, eq_of_numbers same number, eq_of_numbers same.symm (same ▸ number),
        compare_iff, compare_iff]
      grind
    · rw [Bool.eq_iff_iff, eq_block_iff same (by omega), eq_block_iff same.symm (by omega)]
      exact eq_comm
  · rw [eq_of_rank_ne same, eq_of_rank_ne (Ne.symm same)]

theorem Comparable.gt_eq (comparable : a.Comparable b) : a.gt b = b.lt a := by
  by_cases same : a.rank = b.rank
  · obtain empty | bytes | doubles := a.rank_cases
    · rw [(of_empties same empty).2.1, (of_empties same.symm (same ▸ empty)).1]
    · have ab : a.Bytes b := ⟨same, bytes⟩
      obtain ⟨apart, apart'⟩ := ab.apart.mp comparable
      rw [Bool.eq_iff_iff, ab.gt_iff apart apart', ab.symm.lt_iff]
    · have ab : a.Doubles b := ⟨same, doubles⟩
      rw [Bool.eq_iff_iff, ab.gt_eq, ab.symm.lt_eq, compare_iff, compare_iff]
      grind
  · rw [Bool.eq_iff_iff, gt_of_rank_ne same, lt_of_rank_ne (Ne.symm same)]

end ContentObject

end ScCore.Store
