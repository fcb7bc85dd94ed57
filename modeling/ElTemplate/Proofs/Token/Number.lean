import ElTemplate.Proofs.Number.Decimal
import ElTemplate.Proofs.Token.Lexical

/-!
# Floats are decimals

A float is digits, a point with digits behind it, and an exponent with at least one digit. That is
what a decimal consists of, so that reading the number of a scanned float never fails.
-/

namespace ElTemplate.Binary64

open Lexical

variable {cs e : List Char}

theorem toNat?_eq {ds : List Char} (run : IsDigits ds) :
    Digits.toNat? ds = some (Digits.toNat ds) :=
  if_pos ⟨run.some, List.all_eq_true.mpr run.digits⟩

theorem readExponent?_of_isExponent (h : IsExponent e) : (readExponent? e).isSome := by
  cases h with
  | @plain mark ds hmark run =>
    have value := toNat?_eq run
    obtain ⟨d, ds, rfl⟩ := List.exists_cons_of_ne_nil run.some
    have digit := run.digits d List.mem_cons_self
    have plus : d ≠ '+' := by
      rintro rfl
      cases digit
    have minus : d ≠ '-' := by
      rintro rfl
      cases digit
    simp [readExponent?, hmark, plus, minus, value]
  | signed hmark hsign run =>
    rcases hsign with rfl | rfl <;> simp [readExponent?, hmark, toNat?_eq run]

/-- A float is a decimal without a sign. -/
theorem readUnsigned?_of_isFloat (h : IsFloat cs) : (readUnsigned? cs).isSome := by
  cases h with
  | @pointed whole fraction exponent wholeDigits fractionDigits some suffix =>
    have point : ('.' :: (fraction ++ exponent)).head?.any Char.isDigit = false := rfl
    have ends : exponent.head?.any Char.isDigit = false := by
      rcases suffix with rfl | suffix
      · rfl
      · simpa only [List.append_nil] using suffix.not_digit []
    have reads : (readExponent? exponent).isSome := by
      rcases suffix with rfl | suffix
      · rfl
      · exact readExponent?_of_isExponent suffix
    have digits : ¬ (whole = [] ∧ fraction = []) := fun none => some none.1 none.2
    simp only [readUnsigned?, Digits.takeWhile_append wholeDigits point,
      Digits.dropWhile_append wholeDigits point, Digits.takeWhile_append fractionDigits ends,
      Digits.dropWhile_append fractionDigits ends, if_neg digits, Option.isSome_map, reads]
  | @whole whole exponent run suffix =>
    have ends := suffix.not_digit []
    have pointless := suffix.not_point []
    rw [List.append_nil] at ends pointless
    simp only [readUnsigned?, Digits.takeWhile_append run.digits ends,
      Digits.dropWhile_append run.digits ends, run.some, false_and, if_false, Option.isSome_map,
      readExponent?_of_isExponent suffix]

theorem read?_of_isFloat (h : IsFloat cs) : cs.head? ≠ some '-' ∧ (read? cs).isSome := by
  have plain : cs.head? ≠ some '-' := by
    cases h with
    | @pointed whole fraction _ wholeDigits =>
      cases whole with
      | nil => exact nofun
      | cons d ds =>
        rintro ⟨rfl⟩
        cases wholeDigits _ List.mem_cons_self
    | whole run _ =>
      obtain ⟨d, ds, rfl⟩ := List.exists_cons_of_ne_nil run.some
      rintro ⟨rfl⟩
      cases run.digits _ List.mem_cons_self
  refine ⟨plain, ?_⟩
  rw [read?_of_plain plain]
  exact readUnsigned?_of_isFloat h

end ElTemplate.Binary64
