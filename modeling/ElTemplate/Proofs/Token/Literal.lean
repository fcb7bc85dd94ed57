import ElTemplate.Parser.Operator
import ElTemplate.Proofs.Number.Spelling
import ElTemplate.Proofs.Token.Number
import Mathlib.Data.List.DropRight

/-!
# The tokens of operators and literals

An operator or a literal tells the kind of its token. Reading a number and spelling it leaves the
form of its digits behind, but not its value: the digits of an integer read back as the same
literal, and a number that was read has no sign and is finite or infinite.
-/

namespace ElTemplate

/-- The token of an operator between two operands. -/
def BinaryOp.kind : BinaryOp → Token.Kind
  | mul => .mul
  | div => .div
  | mod => .mod
  | add => .plus
  | sub => .minus
  | lt => .lt
  | gt => .gt
  | le => .le
  | ge => .ge
  | eq => .eq
  | ne => .ne
  | and => .and
  | or => .or

/-- The token of an operator before an operand. -/
def UnaryOp.kind : UnaryOp → Token.Kind
  | minus => .minus
  | not => .not
  | empty => .empty

theorem BinaryOp.eq_kind {k : Token.Kind} {op : BinaryOp} (h : ofKind? k = some op) :
    k = op.kind := by
  cases k <;> cases h <;> rfl

theorem BinaryOp.ofKind?_kind (op : BinaryOp) : ofKind? op.kind = some op := by
  cases op <;> rfl

theorem UnaryOp.eq_kind {k : Token.Kind} {op : UnaryOp} (h : ofKind? k = some op) :
    k = op.kind := by
  cases k <;> cases h <;> rfl

namespace Literal

/-- Whether the literal is spelled with digits alone. -/
def isWhole : Literal → Bool
  | integer _ => true
  | bigInteger _ => true
  | _ => false

/-- Whether the literal is an infinite number. -/
def isInfinite : Literal → Bool
  | float value => value.isInfinite
  | _ => false

/-- The token of a literal. -/
def kind : Literal → Token.Kind
  | integer _ => .integer
  | bigInteger _ => .integer
  | float _ => .float
  | string _ => .string
  | boolean true => .trueWord
  | boolean false => .falseWord
  | null => .nullWord

theorem kind_of_isWhole {value : Literal} (h : value.isWhole) : value.kind = .integer := by
  cases value <;> first | rfl | cases h

theorem isInfinite_of_isWhole {value : Literal} (h : value.isWhole) : value.isInfinite = false := by
  cases value <;> first | rfl | cases h

theorem isWhole_ofDigits (cs : List Char) : (ofDigits cs).isWhole := by
  rw [ofDigits]
  split <;> rfl

theorem eq_kind {t : Token} {value : Literal} (h : ofToken? t = some (.ok value)) :
    t.kind = value.kind := by
  obtain ⟨k, image, position⟩ := t
  rw [ofToken?.eq_def] at h
  cases k with
  | integer =>
    cases h
    exact (kind_of_isWhole (isWhole_ofDigits _)).symm
  | float =>
    simp only at h
    split at h
    · cases h
      rfl
    · cases h
  | _ => cases h <;> rfl

/-- The literal that a number is. -/
def ofNat (n : Nat) : Literal :=
  if n ≤ maxInteger then .integer n else .bigInteger (toString n)

/-- A number's literal does not depend on zeros in front. -/
theorem ofDigits_eq {cs : List Char} (digits : ∀ c ∈ cs, c.isDigit) :
    ofDigits cs = ofNat (Digits.toNat cs) := by
  rw [ofDigits, ofNat]
  split
  · rfl
  · next large =>
    have nonzero : Digits.toNat cs ≠ 0 := by
      intro zero
      rw [zero] at large
      exact large (Nat.zero_le _)
    rw [Digits.dropWhile_zero digits nonzero]
    rfl

theorem spelling_ofNat (n : Nat) : (ofNat n).spelling = toString n := by
  rw [ofNat]
  split
  · rw [spelling, spellInteger, if_neg (Int.not_lt.mpr (Int.natCast_nonneg n)),
      Int.natAbs_natCast]
    rfl
  · rfl

theorem ofNat_injective {m n : Nat} (same : ofNat m = ofNat n) : m = n := by
  have spelled := congrArg spelling same
  rw [spelling_ofNat, spelling_ofNat] at spelled
  exact Digits.ofNat_injective (String.ofList_injective spelled)

/-- A literal's digits, whatever zeros they began with, spell the same literal again. -/
theorem spelling_ofDigits {cs : List Char} (digits : ∀ c ∈ cs, c.isDigit) :
    ∃ ds, (ofDigits cs).spelling = String.ofList ds ∧ ds ≠ [] ∧ (∀ c ∈ ds, c.isDigit) ∧
      ofDigits ds = ofDigits cs := by
  have run (c : Char) : c ∈ Digits.ofNat (Digits.toNat cs) → c.isDigit :=
    Digits.isDigit_of_mem_ofNat
  refine ⟨Digits.ofNat (Digits.toNat cs), ?_, Digits.ofNat_ne_nil _, run, ?_⟩
  · rw [ofDigits_eq digits, spelling_ofNat]
    rfl
  · rw [ofDigits_eq run, Digits.toNat_ofNat, ofDigits_eq digits]

end Literal

namespace Binary64

theorem isNegative_ofMagnitude (pattern : Nat) : (ofMagnitude pattern).isNegative = false := by
  have small : min pattern infinityPattern < 2 ^ 63 :=
    Nat.lt_of_le_of_lt (Nat.min_le_right _ _) (by decide)
  have fits : min pattern infinityPattern < 2 ^ 64 := Nat.lt_trans small (by decide)
  rw [isNegative, ofMagnitude, UInt64.toNat_ofNat', Nat.mod_eq_of_lt fits]
  exact decide_eq_false (Nat.not_le.mpr small)

/-- A decimal without a sign is read as a number without one, which may be infinite. -/
theorem unsigned_of_read {cs : List Char} {x : Binary64} (plain : cs.head? ≠ some '-')
    (h : read? cs = some x) : x.isNegative = false ∧ (x.isFinite ∨ x.isInfinite) := by
  have unsigned : readUnsigned? cs = some x := (read?_of_plain plain).symm.trans h
  obtain ⟨pattern, rfl⟩ : ∃ pattern, x = ofMagnitude pattern := by
    rw [readUnsigned?] at unsigned
    split at unsigned
    split at unsigned
    · cases unsigned
    · obtain ⟨exponent, -, rfl⟩ := Option.map_eq_some_iff.mp unsigned
      exact ⟨_, ofDecimal_eq_nearest _ _⟩
  exact ⟨isNegative_ofMagnitude pattern, isFinite_or_isInfinite (isNaN_ofMagnitude pattern)⟩

theorem spell_of_isInfinite {x : Binary64} (unsigned : x.isNegative = false)
    (infinite : x.isInfinite) : x.spell = "Infinity" := by
  rw [spell_infinite infinite, sign, unsigned]
  rfl

end Binary64

end ElTemplate
