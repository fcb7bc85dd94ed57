import ElTemplate.Number.Binary64
import ElTemplate.Number.Digits

/-!
# Decimal spellings of binary64 numbers

`read?` gives the number nearest to a decimal with an optional point and exponent. `spell` writes
the fewest digits that read back as the same number, always in positional form with at least one
digit on both sides of the point. Of two such spellings with equally many digits the nearer one is
written, and of two equally near ones the larger.
-/

namespace ElTemplate.Binary64

open scoped CoreInstances

/-- The value of an exponent suffix: `e` or `E`, an optional sign, and digits. -/
def readExponent? : List Char → Option Int
  | [] => some 0
  | mark :: rest =>
    if mark = 'e' ∨ mark = 'E' then
      match rest with
      | '-' :: digits => (Digits.toNat? digits).map fun n => -(n : Int)
      | '+' :: digits => (Digits.toNat? digits).map fun n => (n : Int)
      | digits => (Digits.toNat? digits).map fun n => (n : Int)
    else none

/-- The number nearest to an unsigned decimal: digits, at most one point among or around them, and
an optional exponent. -/
def readUnsigned? (cs : List Char) : Option Binary64 :=
  let whole := cs.takeWhile Char.isDigit
  let rest := cs.dropWhile Char.isDigit
  let (fraction, suffix) := match rest with
    | '.' :: tail => (tail.takeWhile Char.isDigit, tail.dropWhile Char.isDigit)
    | tail => ([], tail)
  if whole = [] ∧ fraction = [] then none
  else (readExponent? suffix).map fun exponent =>
    ofDecimal (Digits.toNat (whole ++ fraction)) (exponent - fraction.length)

/-- The number nearest to a decimal that may begin with a minus sign. -/
def read? : List Char → Option Binary64
  | '-' :: rest => (readUnsigned? rest).map neg
  | cs => readUnsigned? cs

/-- The digits with a point before the last `places` of them, zeros filled in where digits are
missing and left out where they end the fraction, but with a digit on both sides. -/
def pointed (digits : List Char) (places : Nat) : List Char :=
  let padded := List.replicate (places + 1 - digits.length) '0' ++ digits
  let whole := padded.take (padded.length - places)
  let fraction := (padded.drop (padded.length - places)).reverse.dropWhile (· == '0') |>.reverse
  whole ++ '.' :: (if fraction = [] then ['0'] else fraction)

/-- The positional spelling of `digits * 10 ^ exponent`. -/
def positional (digits : Nat) (exponent : Int) : List Char :=
  pointed (Digits.ofNat digits ++ List.replicate exponent.toNat '0') (-exponent).toNat

/-- The largest `k` with `10 ^ k ≤ num / den`, for a quotient in the range of binary64. -/
def floorLog10 (num den : Nat) : Int :=
  let k := (floorLog2 num den * 30103).fdiv 100000
  let atLeast (k : Int) : Bool := den * 10 ^ k.toNat ≤ num * 10 ^ (-k).toNat
  if atLeast (k + 1) then k + 1 else if atLeast k then k else k - 1

/-- A multiple of `10 ^ exponent` that reads back as `x`, if one of the two around `num / den`
does. -/
def onGrid? (x : Binary64) (num den : Nat) (exponent : Int) : Option Nat :=
  let num := num * 10 ^ (-exponent).toNat
  let den := den * 10 ^ exponent.toNat
  let below := num / den
  let above := if num % den = 0 then below else below + 1
  match ofDecimal below exponent == x, ofDecimal above exponent == x with
  | true, true => some (if 2 * (num % den) < den then below else above)
  | true, false => some below
  | false, true => some above
  | false, false => none

/-- The first hit among the grids whose last place is `exponent` and the finer ones below it. -/
def shortest? (x : Binary64) (num den : Nat) : Nat → Int → Option (Nat × Int)
  | 0, _ => none
  | grids + 1, exponent =>
    match onGrid? x num den exponent with
    | some digits => some (digits, exponent)
    | none => shortest? x num den grids (exponent - 1)

/-- The spelling of a finite number without its sign. -/
def spellMagnitude (x : Binary64) : List Char :=
  let x := ofMagnitude x.magnitude
  let num := x.significand * 2 ^ x.exponent.toNat
  let places := (-x.exponent).toNat
  if num = 0 then positional 0 0
  else match shortest? x num (2 ^ places) 17 (floorLog10 num (2 ^ places)) with
    | some (digits, exponent) => positional digits exponent
    | none => positional (num * 5 ^ places) (-places)

/-- The canonical spelling of a number. -/
def spell (x : Binary64) : String :=
  if x.isNaN then "NaN"
  else
    let unsigned := if x.isInfinite then "Infinity".toList else spellMagnitude x
    String.ofList (if x.isNegative then '-' :: unsigned else unsigned)

end ElTemplate.Binary64
