import ElTemplate.Number.Decimal
import ElTemplate.Proofs.Number.Ratio

/-!
# Decimal logarithms

The decimal logarithm of a quotient is estimated from its binary one. Far beyond the exponents of
binary64 the estimate is at most one away from the logarithm, so the two comparisons behind it
decide.
-/

namespace ElTemplate.Binary64

/-- Powers of two bases compare like those of a common multiple of the exponents. -/
theorem zpow_le_zpow_of_pow {a b : ℚ} (ha : 1 ≤ a) (hb : 0 < b) {m n : ℕ} (hm : m ≠ 0) {j l : ℤ}
    (exponents : m * j ≤ n * l) (powers : (a ^ n) ^ l ≤ (b ^ m) ^ l) : a ^ j ≤ b ^ l := by
  have ha' : 0 ≤ a ^ j := (zpow_pos (zero_lt_one.trans_le ha) j).le
  have hb' : 0 ≤ b ^ l := (zpow_pos hb l).le
  rw [← pow_le_pow_iff_left₀ ha' hb' hm]
  calc (a ^ j) ^ m = a ^ ((m : ℤ) * j) := by rw [← zpow_natCast, ← zpow_mul, mul_comm]
    _ ≤ a ^ ((n : ℤ) * l) := zpow_le_zpow_right₀ ha exponents
    _ = (a ^ n) ^ l := by rw [zpow_mul, zpow_natCast]
    _ ≤ (b ^ m) ^ l := powers
    _ = (b ^ l) ^ m := by rw [← zpow_natCast, ← zpow_natCast, ← zpow_mul, ← zpow_mul, mul_comm]

theorem zpow_le_zpow_of_nonpos {a b : ℚ} (ha : 0 < a) (h : a ≤ b) {l : ℤ} (hl : l ≤ 0) :
    b ^ l ≤ a ^ l := by
  obtain ⟨k, rfl⟩ := Int.exists_eq_neg_ofNat hl
  rw [zpow_neg, zpow_neg, zpow_natCast, zpow_natCast]
  exact inv_anti₀ (pow_pos ha k) (pow_le_pow_left₀ ha.le h k)

/-- A power of ten is not above one of two if its exponent is small enough by two fractions that
the logarithm of two lies between. -/
theorem ten_zpow_le {j l : ℤ} (h : 196 * j ≤ 59 * l) (h' : 93 * j ≤ 28 * l) :
    (10 : ℚ) ^ j ≤ 2 ^ l := by
  rcases le_total 0 l with positive | negative
  · have powers : ((10 : ℚ) ^ 59) ^ l ≤ (2 ^ 196) ^ l :=
      zpow_le_zpow_left₀ positive (by norm_num) (by norm_num)
    exact zpow_le_zpow_of_pow (by norm_num) two_pos (by decide) h powers
  · have powers : ((10 : ℚ) ^ 28) ^ l ≤ (2 ^ 93) ^ l :=
      zpow_le_zpow_of_nonpos (by norm_num) (by norm_num) negative
    exact zpow_le_zpow_of_pow (by norm_num) two_pos (by decide) h' powers

theorem le_ten_zpow {j l : ℤ} (h : 28 * l ≤ 93 * j) (h' : 59 * l ≤ 196 * j) :
    (2 : ℚ) ^ l ≤ 10 ^ j := by
  rcases le_total 0 j with positive | negative
  · have powers : ((2 : ℚ) ^ 93) ^ j ≤ (10 ^ 28) ^ j :=
      zpow_le_zpow_left₀ positive (by norm_num) (by norm_num)
    exact zpow_le_zpow_of_pow one_le_two (by norm_num) (by decide) h powers
  · have powers : ((2 : ℚ) ^ 196) ^ j ≤ (10 ^ 59) ^ j :=
      zpow_le_zpow_of_nonpos (by norm_num) (by norm_num) negative
    exact zpow_le_zpow_of_pow one_le_two (by norm_num) (by decide) h' powers

theorem floorLog10_eq_log {num den : ℕ} (hnum : 0 < num) (hden : 0 < den)
    (low : -10000 ≤ floorLog2 num den) (high : floorLog2 num den ≤ 10000) :
    floorLog10 num den = Int.log 10 ((num : ℚ) / den) := by
  have positive : (0 : ℚ) < (num : ℚ) / den :=
    div_pos (by exact_mod_cast hnum) (by exact_mod_cast hden)
  have bits := floorLog2_eq_log hnum hden
  have atLeast (k : ℤ) : den * 10 ^ k.toNat ≤ num * 10 ^ (-k).toNat ↔
      k ≤ Int.log 10 ((num : ℚ) / den) := by
    rw [← zpow_le_div_iff (by decide) hden, Int.zpow_le_iff_le_log (by decide) positive]
  simp only [floorLog10, decide_eq_true_eq, atLeast]
  generalize floorLog2 num den = l at low high bits
  generalize estimate : (l * 30103).fdiv 100000 = k
  rw [Int.fdiv_eq_ediv_of_nonneg _ (by decide)] at estimate
  have below : k - 1 ≤ Int.log 10 ((num : ℚ) / den) := by
    rw [← Int.zpow_le_iff_le_log (by decide) positive]
    calc ((10 : ℕ) : ℚ) ^ (k - 1) ≤ 2 ^ l := ten_zpow_le (by omega) (by omega)
      _ ≤ (num : ℚ) / den := by
        rw [bits]
        exact Int.zpow_log_le_self (by decide) positive
  have above : Int.log 10 ((num : ℚ) / den) < k + 2 := by
    rw [← Int.lt_zpow_iff_log_lt (by decide) positive]
    calc (num : ℚ) / den < 2 ^ (l + 1) := by
          rw [bits]
          exact Int.lt_zpow_succ_log_self (by decide) _
      _ ≤ ((10 : ℕ) : ℚ) ^ (k + 2) := le_ten_zpow (by omega) (by omega)
  split_ifs <;> omega

end ElTemplate.Binary64
