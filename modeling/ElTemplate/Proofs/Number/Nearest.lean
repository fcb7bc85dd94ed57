import ElTemplate.Proofs.Number.Decimal
import Mathlib.Algebra.Order.Floor.Semifield

/-!
# The nearest number

Rounding in terms of rational numbers: a positive rational is divided by the power of two of its
last place, and the quotient is rounded to an integer. Rounding preserves order, so what lies
between two rationals that are rounded to a number is rounded to it as well, and all that is less
than half of the last place away from a number is rounded to that number.
-/

namespace ElTemplate.Binary64

variable {r s t : ℚ}

/-- The integer nearest to a rational; a half goes to the even neighbour. -/
def halfEven (r : ℚ) : ℕ :=
  if r - ⌊r⌋₊ < 1 / 2 then ⌊r⌋₊
  else if 1 / 2 < r - ⌊r⌋₊ then ⌊r⌋₊ + 1
  else ⌊r⌋₊ + ⌊r⌋₊ % 2

theorem roundHalfEven_eq {num den : ℕ} (hden : 0 < den) :
    roundHalfEven num den = halfEven ((num : ℚ) / den) := by
  have hden' : (0 : ℚ) < den := by exact_mod_cast hden
  have floor : ⌊(num : ℚ) / den⌋₊ = num / den := Nat.floor_div_eq_div num den
  have rest : (num : ℚ) / den - (num / den : ℕ) = (num % den : ℕ) / den := by
    have parts : (num : ℚ) = den * (num / den : ℕ) + (num % den : ℕ) := by
      exact_mod_cast (Nat.div_add_mod num den).symm
    rw [sub_eq_iff_eq_add, div_add' _ _ _ hden'.ne', parts, add_comm, mul_comm]
  have less : ((num % den : ℕ) : ℚ) / den < 1 / 2 ↔ 2 * (num % den) < den := by
    rw [div_lt_div_iff₀ hden' two_pos, one_mul, mul_comm]
    exact_mod_cast Iff.rfl
  have more : 1 / 2 < ((num % den : ℕ) : ℚ) / den ↔ den < 2 * (num % den) := by
    rw [div_lt_div_iff₀ two_pos hden', one_mul, mul_comm]
    exact_mod_cast Iff.rfl
  simp only [roundHalfEven, halfEven, floor, rest, less, more]

theorem floor_le_halfEven (r : ℚ) : ⌊r⌋₊ ≤ halfEven r := by
  rw [halfEven]
  split_ifs <;> omega

theorem halfEven_le_floor (r : ℚ) : halfEven r ≤ ⌊r⌋₊ + 1 := by
  rw [halfEven]
  split_ifs <;> omega

theorem halfEven_mono (h : r ≤ s) : halfEven r ≤ halfEven s := by
  rcases (Nat.floor_mono h).lt_or_eq with less | same
  · calc halfEven r ≤ ⌊r⌋₊ + 1 := halfEven_le_floor r
      _ ≤ ⌊s⌋₊ := less
      _ ≤ halfEven s := floor_le_halfEven s
  · rw [halfEven, halfEven, same]
    split_ifs <;> first | omega | linarith

/-- What is less than a half away from an integer is rounded to it. -/
theorem halfEven_eq {m : ℕ} (positive : 0 ≤ r) (low : m - 1 / 2 < r) (high : r < m + 1 / 2) :
    halfEven r = m := by
  rcases lt_or_ge r m with below | above
  · obtain ⟨k, rfl⟩ : ∃ k, m = k + 1 := by
      refine Nat.exists_eq_succ_of_ne_zero ?_
      rintro rfl
      exact absurd below (not_lt.mpr (by exact_mod_cast positive))
    push_cast at low below
    have floor : ⌊r⌋₊ = k := (Nat.floor_eq_iff positive).mpr ⟨by linarith, below⟩
    rw [halfEven, floor, if_neg (by linarith), if_pos (by linarith)]
  · have floor : ⌊r⌋₊ = m := (Nat.floor_eq_iff positive).mpr ⟨above, by linarith⟩
    rw [halfEven, floor, if_pos (by linarith)]

theorem halfEven_natCast (m : ℕ) : halfEven m = m :=
  halfEven_eq (Nat.cast_nonneg m) (by linarith) (by linarith)

theorem halfEven_le {m : ℕ} (h : r ≤ m) : halfEven r ≤ m := by
  have rounded := halfEven_mono h
  rwa [halfEven_natCast] at rounded

theorem le_halfEven {m : ℕ} (h : m ≤ r) : m ≤ halfEven r := by
  have rounded := halfEven_mono h
  rwa [halfEven_natCast] at rounded

/-- The exponent of the last place that a rational is rounded to. -/
def lastPlace (r : ℚ) : ℤ :=
  max (Int.log 2 r - fractionBits) minExponent

/-- The pattern that a positive rational is rounded to, unless it is beyond the range. -/
def pattern (r : ℚ) : ℕ :=
  (lastPlace r - minExponent).toNat * 2 ^ fractionBits + halfEven (r / 2 ^ lastPlace r)

/-- The number nearest to a rational that is not negative. -/
def nearest (r : ℚ) : Binary64 :=
  ofMagnitude (if r = 0 then 0 else pattern r)

theorem ofRatio_eq_nearest {num den : ℕ} (hden : 0 < den) :
    ofRatio num den = nearest ((num : ℚ) / den) := by
  have hden' : (den : ℚ) ≠ 0 := by exact_mod_cast hden.ne'
  rcases Nat.eq_zero_or_pos num with rfl | hnum
  · rw [ofRatio, if_pos rfl, nearest, Nat.cast_zero, zero_div, if_pos rfl]
  have hnum' : (num : ℚ) ≠ 0 := by exact_mod_cast hnum.ne'
  have scaled := div_div_zpow num den 2 two_pos (lastPlace ((num : ℚ) / den))
  rw [Nat.cast_ofNat] at scaled
  rw [ofRatio, if_neg hnum.ne', nearest, if_neg (div_ne_zero hnum' hden'), pattern, scaled,
    ← roundHalfEven_eq (Nat.mul_pos hden (Nat.two_pow_pos _)), lastPlace,
    floorLog2_eq_log hnum hden]

theorem ofDecimal_eq_nearest (digits : ℕ) (exponent : ℤ) :
    ofDecimal digits exponent = nearest (digits * 10 ^ exponent) := by
  rcases Nat.eq_zero_or_pos digits with rfl | hdigits
  · rw [ofDecimal, if_pos rfl, Nat.cast_zero, zero_mul, nearest, if_pos rfl]
  · have value := mul_zpow_eq_div digits 10 (by decide) exponent
    rw [Nat.cast_ofNat] at value
    rw [ofDecimal_eq hdigits, ofRatio_eq_nearest (by positivity), value]

/-- The value of a finite number without its sign. -/
def value (x : Binary64) : ℚ :=
  x.significand * 2 ^ x.exponent

theorem value_eq (x : Binary64) :
    x.value = (x.significand * 2 ^ x.exponent.toNat : ℕ) / (2 ^ (-x.exponent).toNat : ℕ) :=
  mul_zpow_eq_div x.significand 2 two_pos x.exponent

theorem nearest_value (x : Binary64) : nearest x.value = ofMagnitude x.magnitude := by
  rw [← ofRatio_value, ofRatio_eq_nearest (Nat.two_pow_pos _), value_eq]

/-! ## Order -/

/-- The last place is the finest one that leaves no more bits than a significand has. -/
theorem lastPlace_le_iff (positive : 0 < r) {q : ℤ} :
    lastPlace r ≤ q ↔ minExponent ≤ q ∧ r < 2 ^ 53 * 2 ^ q := by
  have bits := Int.lt_zpow_iff_log_lt (b := 2) (x := (53 : ℕ) + q) (by decide) positive
  rw [Nat.cast_ofNat, zpow_add₀ two_ne_zero, zpow_natCast] at bits
  rw [lastPlace, max_le_iff, bits]
  simp only [fractionBits]
  omega

theorem lastPlace_mono (positive : 0 < r) (h : r ≤ s) : lastPlace r ≤ lastPlace s := by
  obtain ⟨least, less⟩ := (lastPlace_le_iff (positive.trans_le h)).mp le_rfl
  exact (lastPlace_le_iff positive).mpr ⟨least, h.trans_lt less⟩

/-- What has the first bit of a significand before a place is not rounded to a finer one. -/
theorem le_lastPlace (positive : 0 < r) {q : ℤ} (h : 2 ^ 52 * 2 ^ q ≤ r) : q ≤ lastPlace r := by
  by_contra finer
  obtain ⟨-, less⟩ := (lastPlace_le_iff (q := q - 1) positive).mp (by omega)
  rw [zpow_sub_one₀ two_ne_zero] at less
  linarith

/-- The first bit of what is not rounded to the least place of all is the first of a significand. -/
theorem lastPlace_le (positive : 0 < r) (normal : minExponent < lastPlace r) :
    2 ^ 52 * 2 ^ lastPlace r ≤ r := by
  by_contra less
  have finer : lastPlace r ≤ lastPlace r - 1 := by
    refine (lastPlace_le_iff positive).mpr ⟨by omega, ?_⟩
    rw [zpow_sub_one₀ two_ne_zero]
    linarith
  omega

theorem pattern_mono (positive : 0 < r) (h : r ≤ s) : pattern r ≤ pattern s := by
  have scale (x : ℚ) : (0 : ℚ) < 2 ^ lastPlace x := zpow_pos two_pos _
  rcases (lastPlace_mono positive h).lt_or_eq with less | same
  · -- A coarser last place makes up for the largest significand.
    have least : minExponent ≤ lastPlace r := le_max_right _ _
    have high : halfEven (r / 2 ^ lastPlace r) ≤ 2 ^ 53 := by
      refine halfEven_le ((div_le_iff₀ (scale r)).mpr ?_)
      exact_mod_cast ((lastPlace_le_iff positive).mp le_rfl).2.le
    have low : 2 ^ 52 ≤ halfEven (s / 2 ^ lastPlace s) := by
      refine le_halfEven ((le_div_iff₀ (scale s)).mpr ?_)
      exact_mod_cast lastPlace_le (positive.trans_le h) (least.trans_lt less)
    have places : (lastPlace r - minExponent).toNat + 1 ≤ (lastPlace s - minExponent).toNat := by
      omega
    have step := Nat.mul_le_mul_right (2 ^ fractionBits) places
    rw [pattern, pattern]
    simp only [fractionBits] at step ⊢
    omega
  · rw [pattern, pattern, same]
    exact Nat.add_le_add_left (halfEven_mono (div_le_div_of_nonneg_right h (scale s).le)) _

theorem ofMagnitude_nearest (r : ℚ) : ofMagnitude (nearest r).magnitude = nearest r :=
  ofMagnitude_magnitude _

theorem nearest_mono (nonnegative : 0 ≤ r) (h : r ≤ s) :
    (nearest r).magnitude ≤ (nearest s).magnitude := by
  rw [nearest, nearest, magnitude_ofMagnitude, magnitude_ofMagnitude]
  apply min_le_min_right
  rcases nonnegative.eq_or_lt with rfl | positive
  · rw [if_pos rfl]
    exact Nat.zero_le _
  · rw [if_neg positive.ne', if_neg (positive.trans_le h).ne']
    exact pattern_mono positive h

/-- What lies between two rationals with the same nearest number has it as well. -/
theorem nearest_between (nonnegative : 0 ≤ r) (low : r ≤ s) (high : s ≤ t)
    (same : nearest r = nearest t) : nearest s = nearest t := by
  have above := nearest_mono nonnegative low
  have below := nearest_mono (nonnegative.trans low) high
  rw [same] at above
  rw [← ofMagnitude_nearest s, ← ofMagnitude_nearest t, le_antisymm below above]

/-! ## Distance -/

variable {x : Binary64}

theorem significand_lt (x : Binary64) : x.significand < 2 ^ 53 := by
  have fraction : x.magnitude % 2 ^ fractionBits < 2 ^ fractionBits :=
    Nat.mod_lt _ (Nat.two_pow_pos _)
  rw [significand]
  simp only [fractionBits] at fraction ⊢
  split <;> omega

theorem value_pos (nonzero : x.significand ≠ 0) : 0 < x.value :=
  mul_pos (by exact_mod_cast Nat.pos_of_ne_zero nonzero) (zpow_pos two_pos _)

theorem lastPlace_value (nonzero : x.significand ≠ 0) : lastPlace x.value = x.exponent := by
  have positive := Nat.pos_of_ne_zero nonzero
  have log := floorLog2_eq_log (Nat.mul_pos positive (Nat.two_pow_pos x.exponent.toNat))
    (Nat.two_pow_pos (-x.exponent).toNat)
  rw [floorLog2_mul_zpow positive, ← value_eq] at log
  rw [lastPlace, ← log, exponent_eq x nonzero]

/-- What is less than half of the last place away from a number is rounded to it. Below a power of
two the places are finer, so there the significand must not be the least one. -/
theorem nearest_of_near (nonzero : x.significand ≠ 0)
    (low : (x.significand - 1 / 2 : ℚ) * 2 ^ x.exponent < r)
    (high : r < (x.significand + 1 / 2 : ℚ) * 2 ^ x.exponent)
    (side : x.value ≤ r ∨ 2 ^ 52 < x.significand) : nearest r = ofMagnitude x.magnitude := by
  have scale : (0 : ℚ) < 2 ^ x.exponent := zpow_pos two_pos _
  have least : (1 : ℚ) ≤ x.significand := by exact_mod_cast Nat.pos_of_ne_zero nonzero
  have positive : 0 < r := (mul_pos (by linarith) scale).trans low
  have greatest : (x.significand : ℚ) + 1 ≤ 2 ^ 53 := by exact_mod_cast x.significand_lt
  have lowest : minExponent ≤ x.exponent := by
    rw [exponent]
    omega
  have place : lastPlace r = x.exponent := by
    apply le_antisymm
    · exact (lastPlace_le_iff positive).mpr ⟨lowest, by nlinarith⟩
    · rcases side with above | normal
      · rw [← lastPlace_value nonzero]
        exact lastPlace_mono (value_pos nonzero) above
      · have normal' : (2 ^ 52 : ℚ) + 1 ≤ x.significand := by exact_mod_cast normal
        exact le_lastPlace positive (by nlinarith)
  have significands : halfEven (r / 2 ^ x.exponent) = halfEven (x.value / 2 ^ x.exponent) := by
    rw [value, mul_div_cancel_right₀ _ scale.ne',
      halfEven_eq (div_pos positive scale).le ((lt_div_iff₀ scale).mpr low)
        ((div_lt_iff₀ scale).mpr high), halfEven_natCast]
  rw [← nearest_value, nearest, nearest, if_neg positive.ne', if_neg (value_pos nonzero).ne',
    pattern, pattern, place, lastPlace_value nonzero, significands]

end ElTemplate.Binary64
