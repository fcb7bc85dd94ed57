import ElTemplate.Parser.Operator
import ElTemplate.Proofs.Number.Spelling
import ElTemplate.Proofs.Token.Numeral

/-!
# The tokens of spelled numbers

A finite number without a sign is spelled with digits on both sides of a point, which is what a
float is. So in a block its spelling is one token wherever no digit and no exponent goes on with it,
and the literal of that token is the number.
-/

namespace ElTemplate.Binary64

open Lexeme (EndsNumber)
open Lexical (IsDigits)

variable {x : Binary64} {f : List Char}

theorem next_spell (finite : x.isFinite) (unsigned : x.isNegative = false) (ends : EndsNumber f)
    (p : Nat) : Scanner.next ⟨.block, x.spell.toList ++ f, p⟩ =
      (.ok ⟨.float, x.spell, p⟩, ⟨.block, f, p + x.spell.toList.length⟩) := by
  obtain ⟨whole, fraction, spelled, decimal⟩ := spell_spec unsigned finite
  rw [spelled, String.toList_ofList]
  exact Scanner.next_float ⟨decimal.whole_ne_nil, decimal.whole_digits⟩
    ⟨decimal.fraction_ne_nil, decimal.fraction_digits⟩ ends p

theorem ofToken?_spell (finite : x.isFinite) (p : Nat) :
    Literal.ofToken? ⟨.float, x.spell, p⟩ = some (.ok (.float x)) := by
  simp only [Literal.ofToken?, read?_spell finite]

/-- Every finite number is spelled readably: an optional minus sign, digits without a superfluous
zero in front, a point, and digits again, with no more significant digits than any decimal that has
the number as its nearest. The spelling reads back as the number. Without a sign it is one float
token in a block, before whatever does not go on with a number, and that token's literal is the
number. Numbers that are not undefined, zeros of either sign among them, have spellings of their
own. -/
theorem spell_readable :
    (∀ x : Binary64, x.isFinite → ∃ whole fraction,
      x.spell = String.ofList ((if x.isNegative then ['-'] else []) ++ whole ++ '.' :: fraction) ∧
      IsDigits whole ∧ IsDigits fraction ∧ (whole.head? = some '0' → whole = ['0']) ∧
      (∀ n e, ofDecimal n e = ofMagnitude x.magnitude →
        (Digits.significant (whole ++ fraction)).length ≤ (Digits.ofNat n).length) ∧
      read? x.spell.toList = some x) ∧
    (∀ x : Binary64, x.isFinite → x.isNegative = false → ∀ f p, EndsNumber f →
      Scanner.next ⟨.block, x.spell.toList ++ f, p⟩ =
        (.ok ⟨.float, x.spell, p⟩, ⟨.block, f, p + x.spell.toList.length⟩) ∧
      Literal.ofToken? ⟨.float, x.spell, p⟩ = some (.ok (.float x))) ∧
    ∀ x y : Binary64, x.isNaN = false → y.isNaN = false → x.spell = y.spell → x = y := by
  refine ⟨fun x finite => ?_, fun x finite unsigned f p ends => ?_, fun x y => spell_injective⟩
  · obtain ⟨whole, fraction, spelled, decimal, plain, fewest⟩ := spell_finite finite
    rw [← List.append_assoc] at spelled
    exact ⟨whole, fraction, spelled, ⟨decimal.whole_ne_nil, decimal.whole_digits⟩,
      ⟨decimal.fraction_ne_nil, decimal.fraction_digits⟩, plain, fewest, read?_spell finite⟩
  · exact ⟨next_spell finite unsigned ends p, ofToken?_spell finite p⟩

/-- The least number above zero has one significant digit behind hundreds of zeros, a decimal
fraction ends where its block does, and the two zeros are spelled apart. -/
theorem spell_readable_least :
    (∃ whole fraction, (⟨1⟩ : Binary64).spell = String.ofList (whole ++ '.' :: fraction) ∧
      (Digits.significant (whole ++ fraction)).length ≤ 1 ∧
      read? (⟨1⟩ : Binary64).spell.toList = some ⟨1⟩) ∧
    (Scanner.next ⟨.block, ['0', '.', '3', '\x7d'], 0⟩ =
        (.ok ⟨.float, "0.3", 0⟩, ⟨.block, ['\x7d'], 3⟩) ∧
      Literal.ofToken? ⟨.float, "0.3", 0⟩ = some (.ok (.float ⟨0x3FD3333333333333⟩))) ∧
    (⟨0⟩ : Binary64).spell ≠ (⟨0x8000000000000000⟩ : Binary64).spell := by
  obtain ⟨forms, scans, injective⟩ := spell_readable
  obtain ⟨whole, fraction, spelled, -, -, -, fewest, read⟩ := forms ⟨1⟩ rfl
  have digit := fewest 5 (-324) (by decide +kernel)
  have tenths : (⟨0x3FD3333333333333⟩ : Binary64).spell = "0.3" := by decide +kernel
  have scanned := scans ⟨0x3FD3333333333333⟩ rfl rfl ['\x7d'] 0
    (Lexeme.endsNumber_cons rfl ⟨by decide, by decide⟩)
  rw [tenths] at scanned
  refine ⟨⟨whole, fraction, spelled, digit, read⟩, scanned, fun same => ?_⟩
  have zeros := injective ⟨0⟩ ⟨0x8000000000000000⟩ rfl rfl same
  exact absurd zeros (by decide)

end ElTemplate.Binary64
