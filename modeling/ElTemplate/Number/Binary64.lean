import ElTemplate.Number.Core

/-!
# Binary64 numbers

A double-precision number is its bit pattern: a sign, eleven exponent bits and fifty-two fraction
bits. A finite pattern means `significand * 2 ^ exponent` up to its sign. Working on patterns
keeps equality decidable and tells the two zeros apart.
-/

namespace ElTemplate

/-- A double-precision number, given by its bit pattern. -/
structure Binary64 where
  bits : UInt64
deriving DecidableEq, Repr, Inhabited

namespace Binary64

open scoped CoreInstances

/-- Number of fraction bits. -/
def fractionBits : Nat := 52

/-- The exponent of the last place of the smallest numbers. -/
def minExponent : Int := -1074

/-- The pattern of infinity: all exponent bits set, no fraction. -/
def infinityPattern : Nat := 0x7FF0000000000000

/-- The pattern without its sign. -/
def magnitude (x : Binary64) : Nat :=
  x.bits.toNat % 2 ^ (63 : Nat)

def isNegative (x : Binary64) : Bool :=
  2 ^ (63 : Nat) ≤ x.bits.toNat

def isNaN (x : Binary64) : Bool :=
  infinityPattern < x.magnitude

def isInfinite (x : Binary64) : Bool :=
  x.magnitude == infinityPattern

def isFinite (x : Binary64) : Bool :=
  x.magnitude < infinityPattern

/-- The eleven exponent bits. -/
def exponentField (x : Binary64) : Nat :=
  x.magnitude / 2 ^ fractionBits

/-- The integer that a finite number is a power of two times. -/
def significand (x : Binary64) : Nat :=
  let fraction := x.magnitude % 2 ^ fractionBits
  if x.exponentField = 0 then fraction else 2 ^ fractionBits + fraction

/-- The power of two that goes with `significand`. -/
def exponent (x : Binary64) : Int :=
  minExponent + (x.exponentField - 1 : Nat)

/-- The non-negative number of a pattern; patterns beyond infinity's become infinity. -/
def ofMagnitude (pattern : Nat) : Binary64 :=
  ⟨UInt64.ofNat (min pattern infinityPattern)⟩

/-- The number with the opposite sign. -/
def neg (x : Binary64) : Binary64 :=
  ⟨x.bits ^^^ 0x8000000000000000⟩

/-- The integer nearest to `num / den`; a half goes to the even neighbour. -/
def roundHalfEven (num den : Nat) : Nat :=
  let quotient := num / den
  let twice := 2 * (num % den)
  if twice < den then quotient
  else if den < twice then quotient + 1
  else quotient + quotient % 2

/-- The largest `k` with `2 ^ k ≤ num / den`, for positive `num` and `den`. -/
def floorLog2 (num den : Nat) : Int :=
  let k : Int := (num.log2 : Int) - den.log2
  if den * 2 ^ k.toNat ≤ num * 2 ^ (-k).toNat then k else k - 1

/-- The number nearest to `num / den`, ties to even; quotients beyond the range are infinite. -/
def ofRatio (num den : Nat) : Binary64 :=
  if num = 0 then ofMagnitude 0
  else
    let q := max (floorLog2 num den - fractionBits) minExponent
    let m := roundHalfEven (num * 2 ^ (-q).toNat) (den * 2 ^ q.toNat)
    ofMagnitude ((q - minExponent).toNat * 2 ^ fractionBits + m)

/-- The number nearest to `digits * 10 ^ exponent`. Exponents that put a value beyond both ends
of the range whatever its digits are answered without raising ten to them. -/
def ofDecimal (digits : Nat) (exponent : Int) : Binary64 :=
  if digits = 0 then ofMagnitude 0
  else if 400 < exponent then ofMagnitude infinityPattern
  else if exponent + digits.log2 + 1200 < 0 then ofMagnitude 0
  else ofRatio (digits * 10 ^ exponent.toNat) (10 ^ (-exponent).toNat)

end Binary64

end ElTemplate
