import ElTemplate.Proofs.Number.Logarithm
import ElTemplate.Proofs.Number.Nearest
import Mathlib.Tactic.Linarith

/-!
# Shortest spellings

On a decimal grid, one of the two points around a number reads back as the number if any point
does. The search tries the grids from the first digit of the number on, so what it finds has no
more digits than any decimal that reads back as the number, and it finds something: the grid of
seventeen digits is fine enough for every number.
-/

namespace ElTemplate.Binary64

variable {x : Binary64} {num den n : ℕ} {g : ℤ}

/-! ## One grid -/

theorem ceil_div_eq (num : ℕ) (hden : 0 < den) :
    ⌈(num : ℚ) / den⌉₊ = if num % den = 0 then num / den else num / den + 1 := by
  have hden' : (0 : ℚ) < den := by exact_mod_cast hden
  have parts := Nat.div_add_mod num den
  split
  · next whole =>
    rw [whole, add_zero] at parts
    have value : (num : ℚ) / den = (num / den : ℕ) := by
      rw [div_eq_iff hden'.ne', mul_comm]
      exact_mod_cast parts.symm
    rw [value, Nat.ceil_natCast]
  · next rest =>
    have less := Nat.mod_lt num hden
    rw [Nat.ceil_eq_iff (Nat.succ_ne_zero _), Nat.succ_sub_one, lt_div_iff₀ hden',
      div_le_iff₀ hden', mul_comm, mul_comm ((num / den + 1 : ℕ) : ℚ)]
    constructor
    · have below : den * (num / den) < num := by omega
      exact_mod_cast below
    · have above : num ≤ den * (num / den + 1) := by
        rw [Nat.mul_succ]
        omega
      exact_mod_cast above

/-- The points that are tried on a grid are those around the quotient. -/
theorem points_eq (hden : 0 < den) :
    num * 10 ^ (-g).toNat / (den * 10 ^ g.toNat) = ⌊(num : ℚ) / den / 10 ^ g⌋₊ ∧
      (if num * 10 ^ (-g).toNat % (den * 10 ^ g.toNat) = 0 then ⌊(num : ℚ) / den / 10 ^ g⌋₊
        else ⌊(num : ℚ) / den / 10 ^ g⌋₊ + 1) = ⌈(num : ℚ) / den / 10 ^ g⌉₊ := by
  have scaled := div_div_zpow num den 10 (by decide) g
  rw [Nat.cast_ofNat] at scaled
  rw [scaled, Nat.floor_div_eq_div, ceil_div_eq _ (by positivity)]
  exact ⟨rfl, rfl⟩

theorem onGrid?_eq_none (hden : 0 < den) (none : onGrid? x num den g = none) :
    ofDecimal ⌊(num : ℚ) / den / 10 ^ g⌋₊ g ≠ x ∧ ofDecimal ⌈(num : ℚ) / den / 10 ^ g⌉₊ g ≠ x := by
  simp only [onGrid?, points_eq hden] at none
  split at none
  · cases none
  · cases none
  · cases none
  · next below above => exact ⟨beq_eq_false_iff_ne.mp below, beq_eq_false_iff_ne.mp above⟩

theorem onGrid?_eq_some (hden : 0 < den) (found : onGrid? x num den g = some n) :
    ofDecimal n g = x ∧ n ≤ ⌊(num : ℚ) / den / 10 ^ g⌋₊ + 1 := by
  have next := Nat.ceil_le_floor_add_one ((num : ℚ) / den / 10 ^ g)
  simp only [onGrid?, points_eq hden] at found
  split at found
  · next below above =>
    cases found
    split
    · exact ⟨beq_iff_eq.mp below, Nat.le_succ _⟩
    · exact ⟨beq_iff_eq.mp above, next⟩
  · next below _ =>
    cases found
    exact ⟨beq_iff_eq.mp below, Nat.le_succ _⟩
  · next _ above =>
    cases found
    exact ⟨beq_iff_eq.mp above, next⟩
  · cases found

/-- A point that is tried has no more digits than stand before the last place of the grid, or is the
power of ten behind them. -/
theorem le_pow_of_onGrid? (hden : 0 < den) (found : onGrid? x num den g = some n) {j : ℕ}
    (places : Int.log 10 ((num : ℚ) / den) - g + 1 ≤ j) : n ≤ 10 ^ j := by
  have scale : (0 : ℚ) < 10 ^ g := zpow_pos (by norm_num) g
  have less : (num : ℚ) / den / 10 ^ g < (10 ^ j : ℕ) := by
    rw [div_lt_iff₀ scale]
    calc (num : ℚ) / den < 10 ^ (Int.log 10 ((num : ℚ) / den) + 1) := by
          exact_mod_cast Int.lt_zpow_succ_log_self (b := 10) (by decide) ((num : ℚ) / den)
      _ ≤ 10 ^ ((j : ℤ) + g) := zpow_le_zpow_right₀ (by norm_num) (by omega)
      _ = (10 ^ j : ℕ) * 10 ^ g := by
          rw [zpow_add₀ (by norm_num), zpow_natCast, Nat.cast_pow, Nat.cast_ofNat]
  calc n ≤ ⌊(num : ℚ) / den / 10 ^ g⌋₊ + 1 := (onGrid?_eq_some hden found).2
    _ ≤ 10 ^ j := (Nat.floor_lt (by positivity)).mpr less

/-- If the two points around a quotient do not read back as its nearest number, no point does. -/
theorem ne_of_onGrid?_eq_none (hden : 0 < den) (same : nearest ((num : ℚ) / den) = x)
    (none : onGrid? x num den g = none) (n : ℕ) : ofDecimal n g ≠ x := by
  have scale : (0 : ℚ) < 10 ^ g := zpow_pos (by norm_num) g
  have nonnegative : (0 : ℚ) ≤ (num : ℚ) / den := by positivity
  obtain ⟨below, above⟩ := onGrid?_eq_none hden none
  intro hit
  rw [ofDecimal_eq_nearest] at below above hit
  have both : nearest (n * 10 ^ g) = nearest ((num : ℚ) / den) := hit.trans same.symm
  rcases le_or_gt (n : ℚ) ((num : ℚ) / den / 10 ^ g) with low | high
  · have point : (n : ℚ) * 10 ^ g ≤ ⌊(num : ℚ) / den / 10 ^ g⌋₊ * 10 ^ g :=
      mul_le_mul_of_nonneg_right (by exact_mod_cast Nat.le_floor low) scale.le
    have quotient : (⌊(num : ℚ) / den / 10 ^ g⌋₊ : ℚ) * 10 ^ g ≤ (num : ℚ) / den :=
      (le_div_iff₀ scale).mp (Nat.floor_le (by positivity))
    exact below ((nearest_between (by positivity) point quotient both).trans same)
  · have point : (⌈(num : ℚ) / den / 10 ^ g⌉₊ : ℚ) * 10 ^ g ≤ n * 10 ^ g :=
      mul_le_mul_of_nonneg_right (by exact_mod_cast Nat.ceil_le.mpr high.le) scale.le
    have quotient : (num : ℚ) / den ≤ ⌈(num : ℚ) / den / 10 ^ g⌉₊ * 10 ^ g :=
      (div_le_iff₀ scale).mp (Nat.le_ceil _)
    exact above ((nearest_between nonnegative quotient point both.symm).trans hit)

theorem exists_nearest_multiple {r s : ℚ} (hr : 0 ≤ r) (hs : 0 < s) :
    ∃ n : ℕ, r < n * s + s / 2 ∧ n * s ≤ r + s / 2 := by
  have low := Nat.lt_floor_add_one (r / s + 1 / 2)
  have high := Nat.floor_le (a := r / s + 1 / 2) (by positivity)
  generalize ⌊r / s + 1 / 2⌋₊ = n at low high
  have low' : r < (n + 1 / 2) * s := (div_lt_iff₀ hs).mp (by linarith)
  have high' : (n - 1 / 2) * s ≤ r := (le_div_iff₀ hs).mp (by linarith)
  exact ⟨n, by linarith, by linarith⟩

theorem exists_next_multiple {r s : ℚ} (hr : 0 ≤ r) (hs : 0 < s) :
    ∃ n : ℕ, r ≤ n * s ∧ n * s < r + s := by
  have low := Nat.le_ceil (r / s)
  have high := Nat.ceil_lt_add_one (a := r / s) (by positivity)
  generalize ⌈r / s⌉₊ = n at low high
  have high' : (n - 1) * s < r := (lt_div_iff₀ hs).mp (by linarith)
  exact ⟨n, (div_le_iff₀ hs).mp low, by linarith⟩

/-- Seventeen digits are enough to tell a number from all others. -/
theorem exists_seventeen (nonzero : x.significand ≠ 0) :
    ∃ n : ℕ, ofDecimal n (Int.log 10 x.value - 16) = ofMagnitude x.magnitude := by
  have positive := value_pos nonzero
  have scale : (0 : ℚ) < 2 ^ x.exponent := zpow_pos two_pos _
  have first := Int.zpow_log_le_self (b := 10) (by decide) positive
  generalize Int.log 10 x.value = k at first
  have grid : (0 : ℚ) < 10 ^ (k - 16) := zpow_pos (by norm_num) _
  have fine : (10 : ℚ) ^ (k - 16) * 10 ^ 16 ≤ x.value := by
    refine le_trans (le_of_eq ?_) first
    rw [← zpow_natCast, ← zpow_add₀ (by norm_num), Nat.cast_ofNat, Nat.cast_ofNat, sub_add_cancel]
  simp only [ofDecimal_eq_nearest]
  rcases Nat.lt_or_ge (2 ^ 52) x.significand with normal | least
  · -- The nearest point of the grid is less than half of the last place away.
    have greatest : x.value < 2 ^ 53 * 2 ^ x.exponent :=
      mul_lt_mul_of_pos_right (by exact_mod_cast x.significand_lt) scale
    obtain ⟨n, low, high⟩ := exists_nearest_multiple positive.le grid
    rw [value] at fine greatest low high
    exact ⟨n, nearest_of_near nonzero (by linarith) (by linarith) (.inr normal)⟩
  · -- Below a power of two the places are finer, but the point above the number is near enough.
    have least' : x.value ≤ 2 ^ 52 * 2 ^ x.exponent :=
      mul_le_mul_of_nonneg_right (by exact_mod_cast least) scale.le
    obtain ⟨n, low, high⟩ := exists_next_multiple positive.le grid
    refine ⟨n, nearest_of_near nonzero ?_ ?_ (.inl low)⟩
    all_goals
      rw [value] at fine least' low high
      linarith

/-! ## The search -/

/-- What the search finds is on the first grid that has something. -/
theorem shortest?_first {grids : ℕ} {first : ℤ}
    (found : shortest? x num den grids first = some (n, g)) :
    onGrid? x num den g = some n ∧
      ∀ g', g < g' → g' ≤ first → onGrid? x num den g' = none := by
  induction grids generalizing first with
  | zero => cases found
  | succ grids ih =>
    rw [shortest?] at found
    split at found
    · next digits hit =>
      cases found
      exact ⟨hit, fun g' below above => absurd above (not_le.mpr below)⟩
    · next none =>
      obtain ⟨hit, coarser⟩ := ih found
      refine ⟨hit, fun g' below above => ?_⟩
      rcases above.eq_or_lt with rfl | above
      · exact none
      · exact coarser g' below (by omega)

theorem shortest?_eq_none {grids : ℕ} {first : ℤ}
    (none : shortest? x num den grids first = none) (low : first - grids < g) (high : g ≤ first) :
    onGrid? x num den g = .none := by
  induction grids generalizing first with
  | zero => omega
  | succ grids ih =>
    rw [shortest?] at none
    split at none
    · cases none
    · next miss =>
      rcases high.eq_or_lt with rfl | high
      · exact miss
      · exact ih none (by omega) (by omega)

/-- No decimal with fewer digits than the grid has before its last place reads back as the number:
it would be on a coarser grid, or below the first digit of the number. -/
theorem le_length_of_coarser (hden : 0 < den) (positive : 0 < num)
    (same : nearest ((num : ℚ) / den) = x)
    (coarser : ∀ g', g < g' → g' ≤ Int.log 10 ((num : ℚ) / den) → onGrid? x num den g' = none)
    {n' : ℕ} {e : ℤ} (hit : ofDecimal n' e = x) :
    Int.log 10 ((num : ℚ) / den) - g + 1 ≤ (Digits.ofNat n').length := by
  have first := Int.zpow_log_le_self (b := 10) (r := (num : ℚ) / den) (by decide) (by positivity)
  generalize Int.log 10 ((num : ℚ) / den) = k at first coarser
  by_contra short
  have some : 0 < (Digits.ofNat n').length := List.length_pos_iff.mpr (Digits.ofNat_ne_nil n')
  have less := Digits.lt_pow_length n'
  generalize (Digits.ofNat n').length = l at short some less
  have missed := ne_of_onGrid?_eq_none hden same (coarser (k - l + 1) (by omega) (by omega))
  rcases le_or_gt (k - l + 1) e with coarse | fine
  · refine missed (n' * 10 ^ (e - (k - l + 1)).toNat) ?_
    rw [← hit, ← ofDecimal_shift n' (e - (k - l + 1)).toNat e]
    congr 1
    omega
  · have leading : ((10 ^ (l - 1) : ℕ) : ℚ) * 10 ^ (k - l + 1) = 10 ^ k := by
      rw [Nat.cast_pow, Nat.cast_ofNat, ← zpow_natCast, ← zpow_add₀ (by norm_num)]
      congr 1
      omega
    have scale : (0 : ℚ) < 10 ^ e := zpow_pos (by norm_num) e
    have below : (n' : ℚ) * 10 ^ e ≤ 10 ^ k :=
      calc (n' : ℚ) * 10 ^ e ≤ 10 ^ l * 10 ^ e :=
            mul_le_mul_of_nonneg_right (by exact_mod_cast less.le) scale.le
        _ = 10 ^ (l + e) := by rw [zpow_add₀ (by norm_num), zpow_natCast]
        _ ≤ 10 ^ k := zpow_le_zpow_right₀ (by norm_num) (by omega)
    have nonnegative : (0 : ℚ) ≤ n' * 10 ^ e := by positivity
    rw [ofDecimal_eq_nearest] at hit
    refine missed (10 ^ (l - 1)) ?_
    rw [ofDecimal_eq_nearest, leading]
    exact (nearest_between nonnegative below first (hit.trans same.symm)).trans same

theorem floorLog10_value (nonzero : x.significand ≠ 0) :
    floorLog10 (x.significand * 2 ^ x.exponent.toNat) (2 ^ (-x.exponent).toNat) =
      Int.log 10 x.value := by
  have positive := Nat.pos_of_ne_zero nonzero
  have bits : x.significand.log2 < 53 := (Nat.log2_lt nonzero).mpr x.significand_lt
  have field : x.exponentField < 2 ^ 11 := by
    have bound : x.magnitude < 2 ^ 63 := Nat.mod_lt _ (Nat.two_pow_pos _)
    rw [exponentField]
    exact Nat.div_lt_of_lt_mul bound
  have exponent : -1074 ≤ x.exponent ∧ x.exponent ≤ 973 := by
    rw [Binary64.exponent]
    simp only [minExponent]
    omega
  have log := floorLog2_mul_zpow positive x.exponent
  rw [floorLog10_eq_log (Nat.mul_pos positive (Nat.two_pow_pos _)) (Nat.two_pow_pos _) (by omega)
    (by omega), value_eq]

/-- The search finds a decimal that reads back as the number, and none that does has fewer
digits. -/
theorem shortest?_spec (nonzero : x.significand ≠ 0) (same : ofMagnitude x.magnitude = x) :
    ∃ n g, shortest? x (x.significand * 2 ^ x.exponent.toNat) (2 ^ (-x.exponent).toNat) 17
        (floorLog10 (x.significand * 2 ^ x.exponent.toNat) (2 ^ (-x.exponent).toNat)) =
          some (n, g) ∧
      ofDecimal n g = x ∧ ∀ n' e, ofDecimal n' e = x →
        (Digits.significant (Digits.ofNat n)).length ≤ (Digits.ofNat n').length := by
  have hden : 0 < 2 ^ (-x.exponent).toNat := Nat.two_pow_pos _
  have hnum : 0 < x.significand * 2 ^ x.exponent.toNat :=
    Nat.mul_pos (Nat.pos_of_ne_zero nonzero) (Nat.two_pow_pos _)
  have value := (nearest_value x).trans same
  obtain ⟨n₀, seventeen⟩ := exists_seventeen nonzero
  rw [same] at seventeen
  rw [floorLog10_value nonzero]
  rw [value_eq] at value seventeen ⊢
  generalize x.significand * 2 ^ x.exponent.toNat = num at *
  generalize 2 ^ (-x.exponent).toNat = den at *
  cases search : shortest? x num den 17 (Int.log 10 ((num : ℚ) / den)) with
  | none =>
    have miss := shortest?_eq_none search (g := Int.log 10 ((num : ℚ) / den) - 16)
      (by omega) (by omega)
    exact absurd seventeen (ne_of_onGrid?_eq_none hden value miss n₀)
  | some found =>
    obtain ⟨n, g⟩ := found
    obtain ⟨hit, coarser⟩ := shortest?_first search
    refine ⟨n, g, rfl, (onGrid?_eq_some hden hit).1, fun n' e same' => ?_⟩
    have digits := le_length_of_coarser hden hnum value coarser same'
    exact Digits.length_significant_ofNat (List.length_pos_iff.mpr (Digits.ofNat_ne_nil n'))
      (le_pow_of_onGrid? hden hit digits)

end ElTemplate.Binary64
