import ElTemplate.Text.Alphabetic
import ElTemplate.Text.Numeric

/-!
# Identifier characters

An identifier begins with a letter, an underscore or a dollar sign, and goes on with these and
with numbers. Only ASCII digits make numbers and only ASCII letters make exponents, so those two
classes stay core's `Char.isDigit` and plain comparisons.
-/

namespace ElTemplate.Text

/-- Whether an identifier may begin with the character. -/
def isIdentifierStart (c : Char) : Bool :=
  isAlphabetic c || c == '_' || c == '$'

/-- Whether an identifier may go on with the character. -/
def isIdentifierPart (c : Char) : Bool :=
  isAlphabetic c || isNumeric c || c == '_' || c == '$'

theorem isIdentifierPart_of_start {c : Char} (h : isIdentifierStart c) : isIdentifierPart c := by
  simp only [isIdentifierStart, isIdentifierPart, Bool.or_eq_true] at h ⊢
  grind

end ElTemplate.Text
