import Mathlib.Data.Nat.Log
import Mathlib.Tactic.Ring
import Mathlib.Tactic.Linarith

/-!
# Doubles

A number of the binary format with 53 significant bits, as an integer number of units of
`2 ^ -1074`, the least positive number of the format. Rounding an integer to the nearest of
them, with ties to the even one, keeps the order to integers and to numbers of the format.
-/

namespace ScCore.Lib.Double

/-- The number its 64 bits stand for, in units of the least positive one; `none` is not a
number. The formula of the finite numbers gives an infinity the value `2 ^ 2098`, which is
above every one of them. -/
def ofBits (bits : UInt64) : Option Int :=
  let fraction : Nat := bits.toNat % 2 ^ 52
  let exponent : Nat := bits.toNat / 2 ^ 52 % 2 ^ 11
  let magnitude : Nat :=
    if exponent = 0 then fraction else (2 ^ 52 + fraction) * 2 ^ (exponent - 1)
  if exponent = 2047 ∧ fraction ≠ 0 then none
  else some (if 2 ^ 63 ≤ bits.toNat then -magnitude else magnitude)

/-- Has at most 53 significant bits. -/
def Short (v : Nat) : Prop := ∃ m j, m < 2 ^ 53 ∧ v = m * 2 ^ j

variable {v i : Int}

theorem ofBits_short {bits : UInt64} (value : ofBits bits = some v) : Short v.natAbs := by
  have fraction : bits.toNat % 2 ^ 52 < 2 ^ 52 := Nat.mod_lt _ (by decide)
  have magnitude : ∀ e : Nat, Short (if e = 0 then bits.toNat % 2 ^ 52
      else (2 ^ 52 + bits.toNat % 2 ^ 52) * 2 ^ (e - 1)) := by
    intro e
    split
    · exact ⟨_, 0, by omega, (Nat.mul_one _).symm⟩
    · exact ⟨_, e - 1, by omega, rfl⟩
  simp only [ofBits] at value
  split at value
  · cases value
  · obtain rfl := Option.some.inj value
    split <;> simpa only [Int.natAbs_neg, Int.natAbs_natCast] using magnitude _

/-- Rounds to 53 significant bits. -/
def roundNat (n : Nat) : Nat :=
  let unit := 2 ^ (n.log2 - 52)
  let q := n / unit
  let r := n % unit
  if 2 * r < unit ∨ 2 * r = unit ∧ q % 2 = 0 then q * unit else (q + 1) * unit

theorem next_le {q m j k : Nat} (full : 2 ^ 52 ≤ q) (bound : m < 2 ^ 53)
    (above : q * 2 ^ k < m * 2 ^ j) : (q + 1) * 2 ^ k ≤ m * 2 ^ j := by
  have coarse : k ≤ j := by
    by_contra fine
    have double : 2 ^ j * 2 ≤ 2 ^ k := by
      rw [← pow_succ]
      exact Nat.pow_le_pow_right (by decide) (by omega)
    have upper : m * 2 ^ j ≤ 2 ^ 53 * 2 ^ j := Nat.mul_le_mul_right _ bound.le
    have lower : 2 ^ 52 * 2 ^ k ≤ q * 2 ^ k := Nat.mul_le_mul_right _ full
    omega
  have split : m * 2 ^ j = m * 2 ^ (j - k) * 2 ^ k := by
    rw [Nat.mul_assoc, ← pow_add, Nat.sub_add_cancel coarse]
  rw [split] at above ⊢
  have less : q < m * 2 ^ (j - k) := Nat.lt_of_mul_lt_mul_right above
  exact Nat.mul_le_mul_right _ less

section Rounding

variable (n : Nat)

/-- Either the number is kept, or it lies between two neighbours and goes to one of them. -/
theorem roundNat_cases :
    roundNat n = n ∨ ∃ q k, 2 ^ 52 ≤ q ∧ k = n.log2 - 52 ∧ q = n / 2 ^ k ∧
      q * 2 ^ k < n ∧ n < (q + 1) * 2 ^ k ∧
      (roundNat n = q * 2 ^ k ∨ roundNat n = (q + 1) * 2 ^ k) := by
  have positive : 0 < 2 ^ (n.log2 - 52) := Nat.two_pow_pos _
  have divide := Nat.div_add_mod' n (2 ^ (n.log2 - 52))
  have remainder := Nat.mod_lt n positive
  by_cases exact' : n % 2 ^ (n.log2 - 52) = 0
  · left
    rw [roundNat, if_pos (by rw [exact']; exact .inl positive)]
    omega
  · right
    have long : 52 < n.log2 := by
      by_contra small
      rw [show n.log2 - 52 = 0 by omega, pow_zero, Nat.mod_one] at exact'
      exact exact' rfl
    have nonzero : n ≠ 0 := by
      rintro rfl
      simp at long
    have full : 2 ^ 52 ≤ n / 2 ^ (n.log2 - 52) := by
      rw [Nat.le_div_iff_mul_le positive, ← pow_add, Nat.add_sub_cancel' long.le]
      exact Nat.log2_self_le nonzero
    refine ⟨n / 2 ^ (n.log2 - 52), n.log2 - 52, full, rfl, rfl, by omega, ?_, ?_⟩
    · rw [Nat.add_mul]
      omega
    · rw [roundNat]
      split
      · exact .inl rfl
      · exact .inr rfl

variable {n}

theorem roundNat_le {t v : Nat} (short : Short v) (below : n * 2 ^ t ≤ v) :
    roundNat n * 2 ^ t ≤ v := by
  obtain ⟨m, j, bound, rfl⟩ := short
  obtain kept | ⟨q, k, full, -, -, above, -, down | up⟩ := roundNat_cases n
  · rwa [kept]
  · rw [down]
    exact (Nat.mul_le_mul_right _ above.le).trans below
  · have passed : q * 2 ^ (k + t) < m * 2 ^ j := by
      refine lt_of_lt_of_le ?_ below
      rw [pow_add, ← Nat.mul_assoc]
      exact Nat.mul_lt_mul_of_pos_right above (Nat.two_pow_pos t)
    have next := next_le full bound passed
    rwa [pow_add, ← Nat.mul_assoc, ← up] at next

theorem le_roundNat {t v : Nat} (short : Short v) (above : v ≤ n * 2 ^ t) :
    v ≤ roundNat n * 2 ^ t := by
  obtain ⟨m, j, bound, rfl⟩ := short
  obtain kept | ⟨q, k, full, -, -, -, less, down | up⟩ := roundNat_cases n
  · rwa [kept]
  · rw [down, Nat.mul_assoc, ← pow_add]
    by_contra passed
    have next := next_le full bound (not_le.mp passed)
    have last : n * 2 ^ t < (q + 1) * 2 ^ k * 2 ^ t :=
      Nat.mul_lt_mul_of_pos_right less (Nat.two_pow_pos t)
    rw [Nat.mul_assoc, ← pow_add] at last
    omega
  · rw [up]
    exact above.trans (Nat.mul_le_mul_right _ less.le)

theorem short_of_le {q k : Nat} (bound : q ≤ 2 ^ 53) : Short (q * 2 ^ k) := by
  obtain rfl | less := bound.eq_or_lt
  · exact ⟨2 ^ 52, k + 1, by decide, by ring⟩
  · exact ⟨q, k, less, rfl⟩

theorem roundNat_short : Short (roundNat n) := by
  have positive : 0 < 2 ^ (n.log2 - 52) := Nat.two_pow_pos _
  have quotient : n / 2 ^ (n.log2 - 52) < 2 ^ 53 := by
    rw [Nat.div_lt_iff_lt_mul positive, ← pow_add]
    exact Nat.lt_log2_self.trans_le (Nat.pow_le_pow_right (by decide) (by omega))
  rw [roundNat]
  split
  · exact short_of_le quotient.le
  · exact short_of_le quotient

theorem roundNat_mono {n' : Nat} (le : n ≤ n') : roundNat n ≤ roundNat n' := by
  have shortLe : ∀ {v}, Short v → n ≤ v → roundNat n ≤ v := fun short below => by
    simpa using roundNat_le (t := 0) short (by simpa using below)
  by_cases reached : n ≤ roundNat n'
  · exact shortLe roundNat_short reached
  -- both lie between the same neighbours, and the greater goes down
  obtain kept | ⟨q, k, full, width, quotient, -, less, down | up⟩ := roundNat_cases n'
  · omega
  · have lower : q * 2 ^ k < n := by omega
    have same : n / 2 ^ k = q := Nat.div_eq_of_lt_le lower.le (le.trans_lt less)
    have logs : n.log2 = n'.log2 := by
      have start : 2 ^ (52 + k) ≤ n :=
        le_trans (by rw [pow_add]; exact Nat.mul_le_mul_right _ full) lower.le
      have long : 52 + k ≤ n.log2 := (Nat.le_log2 (by omega)).mpr start
      have grows : n.log2 ≤ n'.log2 := (Nat.le_log2 (by omega)).mpr
        (le.trans' (Nat.log2_self_le (by omega)))
      omega
    have divide := Nat.div_add_mod' n (2 ^ k)
    have divide' := Nat.div_add_mod' n' (2 ^ k)
    rw [same] at divide
    rw [← quotient] at divide'
    have step : (q + 1) * 2 ^ k = q * 2 ^ k + 2 ^ k := Nat.succ_mul q _
    have positive : 0 < 2 ^ k := Nat.two_pow_pos k
    rw [down, roundNat, logs, ← width, same]
    rw [roundNat, ← width, ← quotient] at down
    grind
  · omega

end Rounding

/-- A whole number in units of the least positive double. -/
def units (i : Int) : Int := i * 2 ^ 1074

/-- A whole number as a double, the nearest one, in units of the least positive one. -/
def ofInt (i : Int) : Int := units (i.sign * roundNat i.natAbs)

@[simp]
theorem units_natCast (n : Nat) : units n = (n * 2 ^ 1074 : Nat) := by
  rw [units, Nat.cast_mul, Nat.cast_pow, Nat.cast_ofNat]

@[simp]
theorem units_neg (i : Int) : units (-i) = -units i := Int.neg_mul _ _

@[simp]
theorem ofInt_neg (i : Int) : ofInt (-i) = -ofInt i := by
  rw [ofInt, Int.sign_neg, Int.natAbs_neg, Int.neg_mul, units_neg, ofInt]

@[simp]
theorem ofInt_natCast (n : Nat) : ofInt n = (roundNat n * 2 ^ 1074 : Nat) := by
  rw [ofInt, Int.natAbs_natCast]
  obtain rfl | positive := n.eq_zero_or_pos
  · rw [show roundNat 0 = 0 by decide, Nat.zero_mul, Nat.cast_zero, Int.mul_zero]
    exact Int.zero_mul _
  · rw [Int.sign_natCast_of_ne_zero positive.ne', Int.one_mul, units_natCast]

theorem ofInt_le (short : Short v.natAbs) (below : units i ≤ v) : ofInt i ≤ v := by
  obtain ⟨n, rfl | rfl⟩ := i.eq_nat_or_neg
  · rw [units_natCast] at below
    have nonneg : 0 ≤ v := le_trans (Int.natCast_nonneg _) below
    rw [ofInt_natCast, ← Int.natAbs_of_nonneg nonneg, Int.ofNat_le]
    exact roundNat_le short (by omega)
  · rw [units_neg, units_natCast] at below
    rw [ofInt_neg, ofInt_natCast]
    obtain nonneg | negative := le_or_gt 0 v
    · omega
    · have round := le_roundNat short (n := n) (t := 1074) (by omega)
      omega

theorem le_ofInt (short : Short v.natAbs) (above : v ≤ units i) : v ≤ ofInt i := by
  have mirror : ofInt (-i) ≤ -v :=
    ofInt_le (by rwa [Int.natAbs_neg]) (by rw [units_neg]; exact neg_le_neg above)
  rw [ofInt_neg] at mirror
  exact neg_le_neg_iff.mp mirror

theorem ofInt_mono {j : Int} (le : i ≤ j) : ofInt i ≤ ofInt j := by
  obtain ⟨n, rfl | rfl⟩ := i.eq_nat_or_neg <;> obtain ⟨m, rfl | rfl⟩ := j.eq_nat_or_neg
  · rw [ofInt_natCast, ofInt_natCast, Int.ofNat_le]
    exact Nat.mul_le_mul_right _ (roundNat_mono (by omega))
  · obtain rfl : n = 0 := by omega
    obtain rfl : m = 0 := by omega
    exact le_refl _
  · rw [ofInt_neg, ofInt_natCast, ofInt_natCast]
    omega
  · rw [ofInt_neg, ofInt_neg, ofInt_natCast, ofInt_natCast, neg_le_neg_iff, Int.ofNat_le]
    exact Nat.mul_le_mul_right _ (roundNat_mono (by omega))

end ScCore.Lib.Double
