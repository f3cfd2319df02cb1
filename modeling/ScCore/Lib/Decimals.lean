import Mathlib.Data.List.TakeWhile
import Mathlib.Data.Nat.Digits.Lemmas

/-!
# Decimal numerals

Integers as the bytes that they are printed as, and the numbers that bytes are read as.
-/

namespace ScCore.Lib

/-- The digit of a number below ten. -/
def digitByte (d : Nat) : UInt8 := UInt8.ofNat (48 + d)

def isDigit (c : UInt8) : Bool := 48 ≤ c ∧ c ≤ 57

/-- A number with its highest digit first. -/
def naturalDigits (n : Nat) : List UInt8 :=
  if n = 0 then [48] else (Nat.digits 10 n).reverse.map digitByte

/-- The numeral of an integer, without leading zeros. -/
def decimal (n : Int) : List UInt8 :=
  if n < 0 then 45 :: naturalDigits n.natAbs else naturalDigits n.natAbs

/-- The number that digits stand for. -/
def digitsValue (digits : List UInt8) : Nat :=
  digits.foldl (fun value c => 10 * value + (c.toNat - 48)) 0

/-- Whether there is a minus, and what comes behind the sign. -/
def splitSign : List UInt8 → Bool × List UInt8
  | [] => (false, [])
  | c :: rest =>
      if c = 45 then (true, rest) else if c = 43 then (false, rest) else (false, c :: rest)

/-- The number that bytes without a leading blank begin with; nothing if they do not. -/
def readSigned (bytes : List UInt8) : Option Int :=
  let digits := (splitSign bytes).2.takeWhile isDigit
  if digits = [] then none
  else if (splitSign bytes).1 then some (-(digitsValue digits : Int))
  else some (digitsValue digits)

theorem toNat_digitByte {d : Nat} (lt : d < 10) : (digitByte d).toNat = 48 + d := by
  rw [digitByte, UInt8.toNat_ofNat']
  omega

theorem isDigit_digitByte {d : Nat} (lt : d < 10) : isDigit (digitByte d) = true := by
  have h := toNat_digitByte lt
  rw [isDigit, decide_eq_true_eq, UInt8.le_iff_toNat_le, UInt8.le_iff_toNat_le, h]
  exact ⟨Nat.le_add_right _ _, by show 48 + d ≤ 57; omega⟩

theorem mem_naturalDigits {n : Nat} {c : UInt8} (mem : c ∈ naturalDigits n) :
    isDigit c = true := by
  rw [naturalDigits] at mem
  split at mem
  · obtain rfl := List.mem_singleton.mp mem
    decide
  · obtain ⟨d, hd, rfl⟩ := List.mem_map.mp mem
    exact isDigit_digitByte (Nat.digits_lt_base (by decide) (List.mem_reverse.mp hd))

theorem naturalDigits_ne_nil (n : Nat) : naturalDigits n ≠ [] := by
  rw [naturalDigits]
  split
  · exact List.cons_ne_nil _ _
  · next pos =>
    rw [ne_eq, List.map_eq_nil_iff, List.reverse_eq_nil_iff]
    exact Nat.digits_ne_nil_iff_ne_zero.mpr pos

theorem digitsValue_naturalDigits (n : Nat) : digitsValue (naturalDigits n) = n := by
  rw [naturalDigits]
  split
  · next zero =>
    rw [zero]
    rfl
  · have fold (ds : List Nat) (small : ∀ d ∈ ds, d < 10) :
        digitsValue (ds.reverse.map digitByte) = Nat.ofDigits 10 ds := by
      induction ds with
      | nil => rfl
      | cons d ds ih =>
        have rest := ih fun d mem => small d (List.mem_cons_of_mem _ mem)
        have last := toNat_digitByte (small d List.mem_cons_self)
        rw [digitsValue] at rest ⊢
        rw [List.reverse_cons, List.map_append, List.foldl_append, rest, Nat.ofDigits_cons]
        show 10 * Nat.ofDigits 10 ds + ((digitByte d).toNat - 48) = _
        rw [last]
        omega
    rw [fold _ fun d mem => Nat.digits_lt_base (by decide) mem, Nat.ofDigits_digits]

theorem length_naturalDigits_mono {m n : Nat} (le : m ≤ n) :
    (naturalDigits m).length ≤ (naturalDigits n).length := by
  rw [naturalDigits]
  split
  · exact List.length_pos_iff.mpr (naturalDigits_ne_nil n)
  · next pos =>
    rw [naturalDigits, if_neg (by omega), List.length_map, List.length_reverse, List.length_map,
      List.length_reverse]
    exact Nat.le_length_digits_le 10 m n le

theorem mem_decimal {n : Int} {c : UInt8} (mem : c ∈ decimal n) : isDigit c = true ∨ c = 45 := by
  rw [decimal] at mem
  split at mem
  · obtain rfl | mem := List.mem_cons.mp mem
    · exact .inr rfl
    · exact .inl (mem_naturalDigits mem)
  · exact .inl (mem_naturalDigits mem)

theorem decimal_ne_nil (n : Int) : decimal n ≠ [] := by
  rw [decimal]
  split
  · exact List.cons_ne_nil _ _
  · exact naturalDigits_ne_nil _

theorem splitSign_decimal (n : Int) :
    splitSign (decimal n) = (decide (n < 0), naturalDigits n.natAbs) := by
  rw [decimal]
  split
  · next neg => rw [splitSign, if_pos rfl, decide_eq_true neg]
  · next nonneg =>
    obtain ⟨c, rest, hc⟩ := List.exists_cons_of_ne_nil (naturalDigits_ne_nil n.natAbs)
    have digit : isDigit c = true := mem_naturalDigits (hc ▸ List.mem_cons_self)
    have sign {d : UInt8} (other : isDigit d = false) : c ≠ d := by
      rintro rfl
      rw [digit] at other
      cases other
    rw [hc, splitSign, if_neg (sign rfl), if_neg (sign rfl), decide_eq_false nonneg]

theorem readSigned_decimal (n : Int) : readSigned (decimal n) = some n := by
  have digits : (naturalDigits n.natAbs).takeWhile isDigit = naturalDigits n.natAbs :=
    List.takeWhile_eq_self_iff.mpr fun c mem => mem_naturalDigits mem
  rw [readSigned, splitSign_decimal]
  dsimp only
  rw [digits, if_neg (naturalDigits_ne_nil _), digitsValue_naturalDigits]
  split
  · next neg =>
    have neg := of_decide_eq_true neg
    congr 1
    omega
  · next nonneg =>
    have nonneg : ¬ n < 0 := fun neg => nonneg (decide_eq_true neg)
    congr 1
    omega

theorem decimal_injective : Function.Injective decimal := by
  intro m n same
  have read := congrArg readSigned same
  rw [readSigned_decimal, readSigned_decimal] at read
  exact Option.some.inj read

theorem length_decimal_mono {m n : Int} (le : m.natAbs ≤ n.natAbs) (sign : m < 0 → n < 0) :
    (decimal m).length ≤ (decimal n).length := by
  have digits := length_naturalDigits_mono le
  rw [decimal, decimal]
  split
  · next neg =>
    rw [if_pos (sign neg), List.length_cons, List.length_cons]
    exact Nat.succ_le_succ digits
  · split
    · exact Nat.le_succ_of_le digits
    · exact digits

theorem length_decimal_le {n : Int} {k : Nat} (pos : 0 < k) (lt : n.natAbs < 10 ^ k) :
    (decimal n).length ≤ k + 1 := by
  have digits : (naturalDigits n.natAbs).length ≤ k := by
    rw [naturalDigits]
    split
    · exact pos
    · rw [List.length_map, List.length_reverse]
      exact (Nat.digits_length_le_iff (by decide) _).mpr lt
  rw [decimal]
  split
  · exact Nat.succ_le_succ digits
  · exact Nat.le_succ_of_le digits

end ScCore.Lib
