import ElTemplate.Text.Blank
import ElTemplate.Text.Identifier

/-!
# Character classes

The first 128 code points are decided apart from the Unicode tables, so what holds of them is
checked one by one. So is what holds of the white space, which is few characters.
-/

namespace ElTemplate.Text

/-- A decidable property of characters holds of an ASCII character if it holds of all. -/
theorem ascii_of_forall {p : Char → Prop} (all : ∀ n < 128, p (Char.ofNat n)) {c : Char}
    (h : c.toNat < 128) : p c := by
  simpa only [Char.ofNat_toNat] using all c.toNat h

theorem toNat_lt_of_isDigit {c : Char} (h : c.isDigit) : c.toNat < 128 :=
  Nat.lt_of_le_of_lt (Char.isDigit_iff_toNat.mp h).2 (by decide)

/-- No identifier begins with a digit. -/
theorem isIdentifierStart_of_isDigit {c : Char} (h : c.isDigit) : isIdentifierStart c = false :=
  ascii_of_forall (p := fun c => c.isDigit → isIdentifierStart c = false) (by decide)
    (toNat_lt_of_isDigit h) h

theorem isBlank_of_isDigit {c : Char} (h : c.isDigit) : isBlank c = false :=
  ascii_of_forall (p := fun c => c.isDigit → isBlank c = false) (by decide)
    (toNat_lt_of_isDigit h) h

/-- The code points of white space. -/
def blanks : List Nat :=
  [0x09, 0x0A, 0x0B, 0x0C, 0x0D, 0x20, 0x85, 0xA0, 0x1680, 0x2000, 0x2001, 0x2002, 0x2003, 0x2004,
   0x2005, 0x2006, 0x2007, 0x2008, 0x2009, 0x200A, 0x2028, 0x2029, 0x202F, 0x205F, 0x3000]

theorem mem_blanks {c : Char} (h : isBlank c) : c.toNat ∈ blanks := by
  simp only [isBlank, Bool.or_eq_true, Bool.and_eq_true, beq_iff_eq, decide_eq_true_eq] at h
  simp only [blanks, List.mem_cons, List.not_mem_nil, or_false]
  omega

/-- No identifier goes on with white space. -/
theorem isBlank_of_isIdentifierPart {c : Char} (h : isIdentifierPart c) : isBlank c = false := by
  cases blank : isBlank c with
  | false => rfl
  | true =>
    have other := (by decide +kernel : ∀ n ∈ blanks, isIdentifierPart (Char.ofNat n) = false)
      c.toNat (mem_blanks blank)
    rw [Char.ofNat_toNat, h] at other
    cases other

theorem isBlank_of_isIdentifierStart {c : Char} (h : isIdentifierStart c) : isBlank c = false :=
  isBlank_of_isIdentifierPart (isIdentifierPart_of_start h)

end ElTemplate.Text
