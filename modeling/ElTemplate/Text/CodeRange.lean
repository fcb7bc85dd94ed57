/-!
# Sets of characters given by code point ranges

The Unicode character properties that decide what an identifier is are long lists of code
points. They are kept as lists of inclusive ranges, in increasing order.
-/

namespace ElTemplate.Text

/-- An inclusive range of code points, first and last. -/
abbrev CodeRange := Nat × Nat

namespace CodeRange

/-- Whether the code point lies in the range. -/
def contains (range : CodeRange) (code : Nat) : Bool :=
  range.1 ≤ code && code ≤ range.2

/-- Whether the character lies in one of the ranges. -/
def anyContains (ranges : List CodeRange) (c : Char) : Bool :=
  ranges.any (·.contains c.toNat)

end CodeRange

end ElTemplate.Text
