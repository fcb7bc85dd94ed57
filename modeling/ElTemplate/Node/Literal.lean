import ElTemplate.Number.Decimal

/-!
# Literals

The values that an expression can spell out, and their canonical spelling. Integers that fit in
sixty-four signed bits are kept as numbers and longer ones as their digits, so no length is refused
and equal numbers are equal literals.
-/

namespace ElTemplate

inductive Literal where
  | integer (value : Int)
  | bigInteger (digits : String)
  | float (value : Binary64)
  | string (value : String)
  | boolean (value : Bool)
  | null
deriving DecidableEq, Repr, Inhabited

namespace Literal

open scoped CoreInstances

/-- The largest integer that is kept as a number. -/
def maxInteger : Nat :=
  2 ^ (63 : Nat) - 1

/-- The literal for a run of digits, whatever zeros it begins with. -/
def ofDigits (cs : List Char) : Literal :=
  if Digits.toNat cs ≤ maxInteger then .integer (Digits.toNat cs)
  else .bigInteger (String.ofList (cs.dropWhile (· == '0')))

/-- The content of a string literal between single quotes, with a backslash before every
backslash and single quote. -/
def escapeQuoted : List Char → List Char
  | [] => []
  | c :: rest =>
    if c = '\\' ∨ c = '\'' then '\\' :: c :: escapeQuoted rest else c :: escapeQuoted rest

/-- The single-quoted spelling of a string. -/
def quote (content : List Char) : List Char :=
  '\'' :: (escapeQuoted content ++ ['\''])

def spellInteger (value : Int) : List Char :=
  if value < 0 then '-' :: Digits.ofNat value.natAbs else Digits.ofNat value.natAbs

/-- The canonical spelling of a literal. -/
def spelling : Literal → String
  | integer value => String.ofList (spellInteger value)
  | bigInteger digits => digits
  | float value => value.spell
  | string value => String.ofList (quote value.toList)
  | boolean true => "true"
  | boolean false => "false"
  | null => "null"

end Literal

end ElTemplate
