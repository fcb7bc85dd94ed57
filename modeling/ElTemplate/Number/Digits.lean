/-!
# Decimal digits

Reading and writing runs of ASCII digits. A run may be long, so its value is a `Nat`.
-/

namespace ElTemplate.Digits

/-- The value of one digit. -/
def value (c : Char) : Nat :=
  c.toNat - '0'.toNat

/-- The value of a run of digits, the most significant one first. -/
def toNat (cs : List Char) : Nat :=
  cs.foldl (fun n c => 10 * n + value c) 0

/-- The digits of a number, without superfluous zeros. -/
def ofNat (n : Nat) : List Char :=
  Nat.toDigits 10 n

/-- How many digits the text begins with. -/
def count (cs : List Char) : Nat :=
  (cs.takeWhile Char.isDigit).length

theorem toNat_concat (cs : List Char) (c : Char) :
    toNat (cs ++ [c]) = 10 * toNat cs + value c := by
  simp only [toNat, List.foldl_append, List.foldl_cons, List.foldl_nil]

/-- The value of a non-empty run of digits, if the text is one. -/
def toNat? (cs : List Char) : Option Nat :=
  if cs ≠ [] ∧ cs.all Char.isDigit then some (toNat cs) else none

end ElTemplate.Digits
