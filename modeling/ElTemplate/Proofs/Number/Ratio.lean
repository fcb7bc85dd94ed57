import ElTemplate.Number.Binary64
import Mathlib.Data.Int.Log
import Mathlib.Data.Rat.Floor
import Mathlib.Tactic.Ring
import Mathlib.Tactic.Positivity

/-!
# Rounding quotients to binary64

The number nearest to a quotient depends on the quotient alone, not on the numerator and denominator
it is given by. A quotient that is the value of a finite number is rounded to that number.
-/

namespace ElTemplate.Binary64

/-- An integral power as a quotient of natural ones. -/
theorem zpow_eq_div (b : ℕ) (hb : 0 < b) (k : ℤ) :
    (b : ℚ) ^ k = (b : ℚ) ^ k.toNat / (b : ℚ) ^ (-k).toNat := by
  have nonzero : (b : ℚ) ≠ 0 := by positivity
  obtain ⟨n, rfl | rfl⟩ := k.eq_nat_or_neg
  · simp
  · simp

/-- An integer times a power as a quotient of natural numbers. -/
theorem mul_zpow_eq_div (m b : ℕ) (hb : 0 < b) (k : ℤ) :
    (m : ℚ) * (b : ℚ) ^ k = (m * b ^ k.toNat : ℕ) / (b ^ (-k).toNat : ℕ) := by
  push_cast
  rw [zpow_eq_div b hb, mul_div_assoc]

/-- Moving a quotient by places of a base is multiplying natural numbers. -/
theorem div_div_zpow (num den b : ℕ) (hb : 0 < b) (k : ℤ) :
    (num : ℚ) / den / (b : ℚ) ^ k = (num * b ^ (-k).toNat : ℕ) / (den * b ^ k.toNat : ℕ) := by
  push_cast
  rw [zpow_eq_div b hb, div_div_eq_mul_div, div_mul_eq_mul_div, div_div]

/-- Comparing a quotient with a power is comparing natural numbers. -/
theorem zpow_le_div_iff {num den b : ℕ} (hb : 0 < b) (hden : 0 < den) (k : ℤ) :
    (b : ℚ) ^ k ≤ (num : ℚ) / den ↔ den * b ^ k.toNat ≤ num * b ^ (-k).toNat := by
  have scale : (0 : ℚ) < (b : ℚ) ^ k := zpow_pos (by exact_mod_cast hb) k
  have hden' : (0 : ℚ) < (den * b ^ k.toNat : ℕ) := by positivity
  rw [← one_le_div₀ scale, div_div_zpow num den b hb, one_le_div₀ hden']
  exact_mod_cast Iff.rfl

/-- A quotient of powers of two as one power. -/
theorem two_pow_div (m n : ℕ) : (2 : ℚ) ^ m / 2 ^ n = 2 ^ ((m : ℤ) - n) := by
  rw [zpow_sub₀ two_ne_zero, zpow_natCast, zpow_natCast]

theorem floorLog2_eq_log {num den : ℕ} (hnum : 0 < num) (hden : 0 < den) :
    floorLog2 num den = Int.log 2 ((num : ℚ) / den) := by
  have hnum' : (0 : ℚ) < num := by exact_mod_cast hnum
  have hden' : (0 : ℚ) < den := by exact_mod_cast hden
  have positive : (0 : ℚ) < (num : ℚ) / den := div_pos hnum' hden'
  have numLow : (2 : ℚ) ^ num.log2 ≤ num := by
    exact_mod_cast Nat.log2_self_le (Nat.ne_of_gt hnum)
  have numHigh : (num : ℚ) < 2 ^ (num.log2 + 1) := by exact_mod_cast Nat.lt_log2_self
  have denLow : (2 : ℚ) ^ den.log2 ≤ den := by
    exact_mod_cast Nat.log2_self_le (Nat.ne_of_gt hden)
  have denHigh : (den : ℚ) < 2 ^ (den.log2 + 1) := by exact_mod_cast Nat.lt_log2_self
  -- The logarithms of the two numbers give that of the quotient up to one.
  have lower : (num.log2 : ℤ) - den.log2 - 1 ≤ Int.log 2 ((num : ℚ) / den) := by
    have below := div_le_div₀ hnum'.le numLow hden' denHigh.le
    rw [two_pow_div, Nat.cast_succ, ← sub_sub] at below
    rw [← Int.zpow_le_iff_le_log (by decide) positive]
    exact_mod_cast below
  have upper : Int.log 2 ((num : ℚ) / den) < (num.log2 : ℤ) - den.log2 + 1 := by
    have above := div_lt_div₀ numHigh denLow (by positivity) (by positivity)
    rw [two_pow_div, Nat.cast_succ, add_sub_right_comm] at above
    rw [← Int.lt_zpow_iff_log_lt (by decide) positive]
    exact_mod_cast above
  have decided := Int.zpow_le_iff_le_log (R := ℚ) (by decide : 1 < 2) positive
    (x := (num.log2 : ℤ) - den.log2)
  rw [zpow_le_div_iff two_pos hden] at decided
  rw [floorLog2]
  split
  · next above =>
    have := decided.mp above
    omega
  · next below =>
    have := mt decided.mpr below
    omega

theorem roundHalfEven_mul {k : ℕ} (hk : 0 < k) (num den : ℕ) :
    roundHalfEven (k * num) (k * den) = roundHalfEven num den := by
  have smaller : ∀ a b : ℕ, k * a < k * b ↔ a < b := by
    intro a b
    exact Nat.mul_lt_mul_left hk
  have twice : 2 * (k * (num % den)) = k * (2 * (num % den)) := by ring
  rw [roundHalfEven, roundHalfEven, Nat.mul_div_mul_left num den hk, Nat.mul_mod_mul_left]
  simp only [twice, smaller]

/-- What is a multiple is not rounded. -/
theorem roundHalfEven_of_mul {den : ℕ} (hden : 0 < den) (m : ℕ) :
    roundHalfEven (m * den) den = m := by
  have small : 2 * (m * den % den) < den := by
    rw [Nat.mul_mod_left]
    exact hden
  rw [roundHalfEven, if_pos small, Nat.mul_div_cancel m hden]

/-- The nearest number does not depend on a common factor. -/
theorem ofRatio_mul {k num den : ℕ} (hk : 0 < k) (hden : 0 < den) :
    ofRatio (k * num) (k * den) = ofRatio num den := by
  rcases Nat.eq_zero_or_pos num with rfl | hnum
  · rw [Nat.mul_zero, ofRatio, ofRatio, if_pos rfl, if_pos rfl]
  have hk' : (k : ℚ) ≠ 0 := by exact_mod_cast Nat.ne_of_gt hk
  have quotient : ((k * num : ℕ) : ℚ) / (k * den : ℕ) = (num : ℚ) / den := by
    push_cast
    exact mul_div_mul_left _ _ hk'
  have logs : floorLog2 (k * num) (k * den) = floorLog2 num den := by
    rw [floorLog2_eq_log (Nat.mul_pos hk hnum) (Nat.mul_pos hk hden), quotient,
      floorLog2_eq_log hnum hden]
  rw [ofRatio, ofRatio, if_neg (Nat.ne_of_gt (Nat.mul_pos hk hnum)), if_neg (Nat.ne_of_gt hnum),
    logs]
  simp only [Nat.mul_assoc, roundHalfEven_mul hk]

/-- The nearest number depends on the quotient alone. -/
theorem ofRatio_congr {num den num' den' : ℕ} (hden : 0 < den) (hden' : 0 < den')
    (same : num * den' = num' * den) : ofRatio num den = ofRatio num' den' := by
  rw [← ofRatio_mul hden' hden, ← ofRatio_mul hden hden', Nat.mul_comm den' num, same,
    Nat.mul_comm num' den, Nat.mul_comm den' den]

/-- The logarithm of an integer times a power of two. -/
theorem floorLog2_mul_zpow {m : ℕ} (hm : 0 < m) (e : ℤ) :
    floorLog2 (m * 2 ^ e.toNat) (2 ^ (-e).toNat) = m.log2 + e := by
  have hnum : 0 < m * 2 ^ e.toNat := Nat.mul_pos hm (Nat.two_pow_pos _)
  have hden : 0 < 2 ^ (-e).toNat := Nat.two_pow_pos _
  have value : ((m * 2 ^ e.toNat : ℕ) : ℚ) / (2 ^ (-e).toNat : ℕ) = m * 2 ^ e :=
    (mul_zpow_eq_div m 2 two_pos e).symm
  have hm' : (0 : ℚ) < m := by exact_mod_cast hm
  have positive : (0 : ℚ) < m * 2 ^ e := mul_pos hm' (zpow_pos two_pos e)
  have low : (2 : ℚ) ^ m.log2 ≤ m := by exact_mod_cast Nat.log2_self_le (Nat.ne_of_gt hm)
  have high : (m : ℚ) < 2 ^ (m.log2 + 1) := by exact_mod_cast Nat.lt_log2_self
  have scale : (0 : ℚ) < 2 ^ e := zpow_pos two_pos e
  have lower : (m.log2 : ℤ) + e ≤ Int.log 2 ((m : ℚ) * 2 ^ e) := by
    rw [← Int.zpow_le_iff_le_log (by decide) positive, Nat.cast_ofNat, zpow_add₀ (by decide),
      zpow_natCast]
    exact mul_le_mul_of_nonneg_right low scale.le
  have upper : Int.log 2 ((m : ℚ) * 2 ^ e) < m.log2 + 1 + e := by
    rw [← Int.lt_zpow_iff_log_lt (by decide) positive, Nat.cast_ofNat, zpow_add₀ (by decide)]
    have power : (2 : ℚ) ^ ((m.log2 : ℤ) + 1) = 2 ^ (m.log2 + 1) := by
      exact_mod_cast zpow_natCast (2 : ℚ) (m.log2 + 1)
    rw [power]
    exact mul_lt_mul_of_pos_right high scale
  rw [floorLog2_eq_log hnum hden, value]
  omega

/-- Only zero has no significand. -/
theorem magnitude_of_significand {x : Binary64} (h : x.significand = 0) : x.magnitude = 0 := by
  have parts := Nat.div_add_mod x.magnitude (2 ^ fractionBits)
  rw [significand] at h
  split at h
  · next zero =>
    rw [exponentField] at zero
    rw [zero, h] at parts
    omega
  · simp only [fractionBits] at h
    omega

/-- The exponent of a finite number is that of the last place it is rounded to. -/
theorem exponent_eq (x : Binary64) (h : x.significand ≠ 0) :
    max ((x.significand.log2 : ℤ) + x.exponent - fractionBits) minExponent = x.exponent := by
  have bound : x.magnitude % 2 ^ fractionBits < 2 ^ fractionBits :=
    Nat.mod_lt _ (Nat.two_pow_pos _)
  by_cases zero : x.exponentField = 0
  · have small : x.significand.log2 < fractionBits := by
      rw [Nat.log2_lt h, significand, if_pos zero]
      exact bound
    rw [exponent, zero]
    simp only [minExponent]
    omega
  · have exact : x.significand.log2 = fractionBits := by
      rw [Nat.log2_eq_iff h, significand, if_neg zero]
      constructor
      · omega
      · rw [Nat.pow_succ]
        omega
    rw [exact, exponent]
    simp only [minExponent]
    omega

/-- The value of a finite number is rounded to the number. -/
theorem ofRatio_value (x : Binary64) :
    ofRatio (x.significand * 2 ^ x.exponent.toNat) (2 ^ (-x.exponent).toNat) =
      ofMagnitude x.magnitude := by
  by_cases h : x.significand = 0
  · rw [h, Nat.zero_mul, magnitude_of_significand h, ofRatio, if_pos rfl]
  have positive : 0 < x.significand := Nat.pos_of_ne_zero h
  have nonzero : x.significand * 2 ^ x.exponent.toNat ≠ 0 :=
    Nat.ne_of_gt (Nat.mul_pos positive (Nat.two_pow_pos _))
  have common : 0 < 2 ^ x.exponent.toNat * 2 ^ (-x.exponent).toNat :=
    Nat.mul_pos (Nat.two_pow_pos _) (Nat.two_pow_pos _)
  have rounded : roundHalfEven
      (x.significand * 2 ^ x.exponent.toNat * 2 ^ (-x.exponent).toNat)
      (2 ^ (-x.exponent).toNat * 2 ^ x.exponent.toNat) = x.significand := by
    rw [Nat.mul_assoc, Nat.mul_comm (2 ^ (-x.exponent).toNat)]
    exact roundHalfEven_of_mul common x.significand
  have pattern : (x.exponent - minExponent).toNat * 2 ^ fractionBits + x.significand =
      x.magnitude := by
    have parts := Nat.div_add_mod x.magnitude (2 ^ fractionBits)
    have field : (x.exponent - minExponent).toNat = x.exponentField - 1 := by
      rw [exponent]
      omega
    rw [field, significand]
    split
    · next zero =>
      rw [exponentField] at zero
      rw [zero] at parts
      rw [exponentField, zero]
      omega
    · next nonzero =>
      obtain ⟨field', hfield⟩ := Nat.exists_eq_succ_of_ne_zero nonzero
      rw [hfield, Nat.succ_sub_one]
      rw [exponentField] at hfield
      rw [hfield, Nat.mul_succ, Nat.mul_comm] at parts
      omega
  rw [ofRatio, if_neg nonzero, floorLog2_mul_zpow positive]
  simp only [exponent_eq x h, rounded, pattern]

end ElTemplate.Binary64
