import Mathlib.Algebra.Group.Nat.Defs
import Mathlib.Order.Bounds.Basic
import ElTemplate.Cache.Basic

/-!
# Rounding up the number of callers

The number of callers is rounded up to a power of two, which a word can hold up to `2 ^ 63`. So for
up to that many callers a striped cache can be made, and for more of them the rounding overflows.
-/

namespace ElTemplate.Cache

variable {α : Type} {hash : String → Nat} {capacity concurrency : Nat}

namespace Striped

variable {n e count : Nat}

theorem exponent?_eq_some_iff :
    exponent? n = some e ↔ n ≤ 2 ^ e ∧ e < 64 ∧ ∀ d < e, 2 ^ d < n := by
  simp [exponent?, List.find?_range_eq_some]

theorem exponent?_eq_none_iff : exponent? n = none ↔ 2 ^ 63 < n := by
  simp only [exponent?, List.find?_eq_none, List.mem_range, decide_eq_true_eq, Nat.not_le]
  constructor
  · exact fun all => all 63 (by decide)
  · intro many e inside
    have bound : 2 ^ e ≤ 2 ^ 63 := Nat.pow_le_pow_right Nat.two_pos (Nat.le_of_lt_succ inside)
    exact Nat.lt_of_le_of_lt bound many

/-- Rounding up gives the least power of two that is enough. -/
theorem isLeast_of_exponent? (h : exponent? n = some e) :
    IsLeast {p | p.isPowerOfTwo ∧ n ≤ p} (2 ^ e) := by
  obtain ⟨enough, -, below⟩ := exponent?_eq_some_iff.mp h
  refine ⟨⟨⟨e, rfl⟩, enough⟩, ?_⟩
  rintro _ ⟨⟨d, rfl⟩, enough'⟩
  by_contra less
  have smaller : d < e := (Nat.pow_lt_pow_iff_right Nat.one_lt_two).mp (Nat.not_le.mp less)
  exact absurd enough' (Nat.not_le.mpr (below d smaller))

theorem segmentCount?_eq_none_iff : segmentCount? capacity concurrency = none ↔
    2 ^ 63 < concurrency := by
  have one : 1 ≤ 2 ^ 63 := Nat.one_le_two_pow
  rw [segmentCount?, Option.map_eq_none_iff, exponent?_eq_none_iff]
  omega

/-- The number of segments is the least power of two that is enough for the callers, or the capacity
if that is less. -/
theorem exists_power (h : segmentCount? capacity concurrency = some count) :
    ∃ power, IsLeast {p | p.isPowerOfTwo ∧ max concurrency 1 ≤ p} power ∧
      count = min power capacity := by
  obtain ⟨e, rounded, rfl⟩ := Option.map_eq_some_iff.mp h
  exact ⟨2 ^ e, isLeast_of_exponent? rounded, rfl⟩

end Striped

/-- A striped cache is made of segments without entries, as many as rounding gives. Each of them has
room for an entry. -/
theorem exists_count_of_newStriped {c : Cache α}
    (made : newStriped hash capacity concurrency = .ok c) :
    ∃ count, Striped.segmentCount? capacity concurrency = some count ∧ 0 < count ∧
      count ≤ capacity ∧ c = striped (.empty hash capacity count) := by
  rw [newStriped] at made
  split at made
  · cases made
  · next room =>
    split at made
    · next count counted =>
      cases made
      obtain ⟨power, ⟨⟨-, enough⟩, -⟩, rfl⟩ := Striped.exists_power counted
      exact ⟨_, counted, by omega, Nat.min_le_right _ _, rfl⟩
    · cases made

/-- With room for an entry, a striped cache can be made for up to `2 ^ 63` callers. -/
theorem exists_newStriped_iff (hash : String → Nat) (positive : 0 < capacity) :
    (∃ c : Cache α, newStriped hash capacity concurrency = .ok c) ↔ concurrency ≤ 2 ^ 63 := by
  rw [newStriped, if_neg (Nat.ne_of_gt positive), ← Nat.not_lt,
    ← Striped.segmentCount?_eq_none_iff]
  cases Striped.segmentCount? capacity concurrency with
  | none => simp
  | some count => simp

/-- For more callers the program stops. -/
theorem newStriped_of_lt (positive : 0 < capacity) (many : 2 ^ 63 < concurrency) :
    (newStriped hash capacity concurrency : Except Failure (Cache α)) = .error .overflow := by
  rw [newStriped, if_neg (Nat.ne_of_gt positive), Striped.segmentCount?_eq_none_iff.mpr many]

end ElTemplate.Cache
