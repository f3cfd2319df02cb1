import Mathlib.Data.List.Basic
import Mathlib.Tactic.IntervalCases
import Mathlib.Tactic.Ring

/-!
# Bytes of numbers

A number as a list of its bytes, the lowest one first, and the sum of bytes modulo two.
-/

namespace ScCore.Lib

/-- The number that has these bytes. -/
def ofBytes : List UInt8 → Nat
  | [] => 0
  | b :: bs => b.toNat + 256 * ofBytes bs

/-- The lowest bytes of a number. -/
def toBytes : Nat → Nat → List UInt8
  | 0, _ => []
  | len + 1, n => UInt8.ofNat n :: toBytes len (n / 256)

@[simp]
theorem length_toBytes (len n : Nat) : (toBytes len n).length = len := by
  induction len generalizing n with
  | zero => rfl
  | succ len ih => simp [toBytes, ih]

theorem ofBytes_lt (bs : List UInt8) : ofBytes bs < 256 ^ bs.length := by
  induction bs with
  | nil => simp [ofBytes]
  | cons b bs ih =>
    have hb : b.toNat < 256 := b.toNat_lt
    rw [ofBytes, List.length_cons, pow_succ]
    omega

theorem toBytes_ofBytes (bs : List UInt8) : toBytes bs.length (ofBytes bs) = bs := by
  induction bs with
  | nil => rfl
  | cons b bs ih =>
    have hb : b.toNat < 256 := b.toNat_lt
    have hdiv : (b.toNat + 256 * ofBytes bs) / 256 = ofBytes bs := by omega
    have hhead : UInt8.ofNat (b.toNat + 256 * ofBytes bs) = b := by
      apply UInt8.toNat_inj.mp
      rw [UInt8.toNat_ofNat']
      omega
    rw [List.length_cons, ofBytes, toBytes, hdiv, hhead, ih]

theorem ofBytes_toBytes {len n : Nat} (h : n < 256 ^ len) : ofBytes (toBytes len n) = n := by
  induction len generalizing n with
  | zero =>
    rw [pow_zero] at h
    exact (Nat.lt_one_iff.mp h).symm
  | succ len ih =>
    rw [pow_succ] at h
    have hdiv : n / 256 < 256 ^ len := by omega
    rw [toBytes, ofBytes, ih hdiv, UInt8.toNat_ofNat']
    omega

/-- The bytes of a word, in the order of the host or in the other one. -/
def swapBytes (swap : Bool) (bs : List UInt8) : List UInt8 := if swap then bs.reverse else bs

@[simp]
theorem length_swapBytes (swap : Bool) (bs : List UInt8) :
    (swapBytes swap bs).length = bs.length := by
  cases swap with
  | false => rfl
  | true => exact List.length_reverse

@[simp]
theorem swapBytes_swapBytes (swap : Bool) (bs : List UInt8) :
    swapBytes swap (swapBytes swap bs) = bs := by
  cases swap with
  | false => rfl
  | true => exact List.reverse_reverse bs

/-- The sum of bytes modulo two, from a sum that there is already. -/
def xorFrom (sum : UInt8) (bs : List UInt8) : UInt8 := bs.foldl (· ^^^ ·) sum

@[simp]
theorem xorFrom_nil (sum : UInt8) : xorFrom sum [] = sum := rfl

theorem xorFrom_append (sum : UInt8) (bs bs' : List UInt8) :
    xorFrom sum (bs ++ bs') = xorFrom (xorFrom sum bs) bs' := List.foldl_append

theorem xorFrom_singleton_eq_zero {sum b : UInt8} : xorFrom sum [b] = 0 ↔ b = sum := by
  change sum ^^^ b = 0 ↔ b = sum
  rw [UInt8.xor_eq_zero_iff]
  exact eq_comm

theorem xorFrom_xor (sum d : UInt8) (bs : List UInt8) :
    xorFrom (sum ^^^ d) bs = xorFrom sum bs ^^^ d := by
  induction bs generalizing sum with
  | nil => rfl
  | cons b bs ih =>
    have swapped : sum ^^^ d ^^^ b = sum ^^^ b ^^^ d := by
      rw [UInt8.xor_assoc, UInt8.xor_comm d b, ← UInt8.xor_assoc]
    show xorFrom (sum ^^^ d ^^^ b) bs = xorFrom (sum ^^^ b) bs ^^^ d
    rw [swapped, ih]

/-- One bit of one of the bytes is another one. -/
inductive FlipsBit : List UInt8 → List UInt8 → Prop where
  | mk (before after : List UInt8) (b : UInt8) {i : Nat} : i < 8 →
      FlipsBit (before ++ b :: after) (before ++ (b ^^^ UInt8.ofNat (2 ^ i)) :: after)

namespace FlipsBit

variable {bs bs' : List UInt8}

theorem length_eq (h : FlipsBit bs bs') : bs'.length = bs.length := by
  cases h
  simp

theorem append_left (front : List UInt8) (h : FlipsBit bs bs') :
    FlipsBit (front ++ bs) (front ++ bs') := by
  cases h with
  | mk before after b hi =>
    rw [← List.append_assoc, ← List.append_assoc]
    exact mk (front ++ before) after b hi

theorem append_right (back : List UInt8) (h : FlipsBit bs bs') :
    FlipsBit (bs ++ back) (bs' ++ back) := by
  cases h with
  | mk before after b hi =>
    rw [List.append_assoc, List.append_assoc]
    exact mk before (after ++ back) b hi

theorem xorFrom_eq (h : FlipsBit bs bs') (sum : UInt8) :
    ∃ i < 8, xorFrom sum bs' = xorFrom sum bs ^^^ UInt8.ofNat (2 ^ i) := by
  cases h with
  | @mk before after b i hi =>
    refine ⟨i, hi, ?_⟩
    rw [xorFrom_append, xorFrom_append]
    show xorFrom (xorFrom sum before ^^^ (b ^^^ UInt8.ofNat (2 ^ i))) after =
      xorFrom (xorFrom sum before ^^^ b) after ^^^ UInt8.ofNat (2 ^ i)
    rw [← UInt8.xor_assoc, xorFrom_xor]

theorem xorFrom_ne (h : FlipsBit bs bs') (sum : UInt8) : xorFrom sum bs' ≠ xorFrom sum bs := by
  obtain ⟨i, hi, heq⟩ := h.xorFrom_eq sum
  have turned : UInt8.ofNat (2 ^ i) ≠ 0 := by
    interval_cases i <;> decide
  rw [heq]
  intro same
  apply turned
  calc UInt8.ofNat (2 ^ i)
      = xorFrom sum bs ^^^ (xorFrom sum bs ^^^ UInt8.ofNat (2 ^ i)) := by
        rw [← UInt8.xor_assoc, UInt8.xor_self, UInt8.zero_xor]
    _ = 0 := by rw [same, UInt8.xor_self]

end FlipsBit

end ScCore.Lib
