import ElTemplate.Proofs.Number.Shortest

/-!
# Canonical spellings of numbers

A finite number is spelled as a sign, digits, a point and digits, as few as tell it apart from all
other numbers. The spelling reads back as the number, and an infinite one is spelled as no decimal
is, so numbers that are not undefined have spellings of their own.
-/

namespace ElTemplate.Binary64

variable {x y : Binary64}

/-- What is spelled before a number. -/
def sign (x : Binary64) : List Char :=
  if x.isNegative then ['-'] else []

/-- The shortest spelling of a number's magnitude. -/
theorem spellMagnitude_spec (x : Binary64) :
    ∃ whole fraction, x.spellMagnitude = whole ++ '.' :: fraction ∧
      Decimal whole fraction (ofMagnitude x.magnitude) ∧
      (whole.head? = some '0' → whole = ['0']) ∧
      ∀ n e, ofDecimal n e = ofMagnitude x.magnitude →
        (Digits.significant (whole ++ fraction)).length ≤ (Digits.ofNat n).length := by
  have same := ofMagnitude_magnitude x.magnitude
  rw [spellMagnitude]
  generalize ofMagnitude x.magnitude = y at same
  by_cases zero : y.significand = 0
  · have value : y = ofMagnitude 0 := by rw [← same, magnitude_of_significand zero]
    rw [zero, Nat.zero_mul, if_pos rfl, value]
    have digit : ∀ c ∈ ['0'], c.isDigit := List.all_eq_true.mp rfl
    exact ⟨['0'], ['0'], rfl, ⟨List.cons_ne_nil _ _, List.cons_ne_nil _ _, digit, digit, rfl⟩,
      fun _ => rfl, fun _ _ _ => Nat.zero_le _⟩
  · obtain ⟨n, g, search, hit, fewest⟩ := shortest?_spec zero same
    have nonzero : y.significand * 2 ^ y.exponent.toNat ≠ 0 :=
      Nat.mul_ne_zero zero (Nat.two_pow_pos _).ne'
    have some : n ≠ 0 := by
      rintro rfl
      rw [← hit, ofDecimal, if_pos rfl] at zero
      exact zero rfl
    obtain ⟨whole, fraction, spelled, decimal, head, significant⟩ := positional_spec n g
    rw [hit] at decimal
    rw [if_neg nonzero, search]
    refine ⟨whole, fraction, spelled, decimal, head some, ?_⟩
    rwa [significant]

/-- A pattern is its sign and its magnitude. -/
theorem bits_eq (x : Binary64) :
    x.bits.toNat = (if x.isNegative then 2 ^ 63 else 0) + x.magnitude := by
  have bound := x.bits.toNat_lt
  simp only [isNegative, magnitude, decide_eq_true_eq]
  split <;> omega

theorem two_pow_xor {m : ℕ} (h : m < 2 ^ 63) : m ^^^ 2 ^ 63 = 2 ^ 63 + m := by
  have high := Nat.xor_div_two_pow (a := m) (b := 2 ^ 63) (n := 63)
  have low := Nat.xor_mod_two_pow (a := m) (b := 2 ^ 63) (n := 63)
  rw [Nat.div_eq_of_lt h, Nat.div_self (Nat.two_pow_pos 63), Nat.zero_xor] at high
  rw [Nat.mod_eq_of_lt h, Nat.mod_self, Nat.xor_zero] at low
  omega

/-- A number that is not undefined is given by its sign and its magnitude. -/
theorem eq_of_magnitude (number : x.isNaN = false) :
    (if x.isNegative then neg (ofMagnitude x.magnitude) else ofMagnitude x.magnitude) = x := by
  have bits := x.bits_eq
  have bounded : x.magnitude ≤ infinityPattern := by simpa [isNaN] using number
  have small : x.magnitude < 2 ^ 63 := Nat.mod_lt _ (Nat.two_pow_pos _)
  have fits : x.magnitude < 2 ^ 64 := small.trans (by decide)
  split
  · next negative =>
    rw [if_pos negative] at bits
    rw [neg, ofMagnitude, Nat.min_eq_left bounded]
    refine congrArg Binary64.mk (UInt64.toNat_inj.mp ?_)
    rw [UInt64.toNat_xor, UInt64.toNat_ofNat', Nat.mod_eq_of_lt fits, bits]
    exact two_pow_xor small
  · next unsigned =>
    rw [if_neg unsigned, zero_add] at bits
    rw [ofMagnitude, Nat.min_eq_left bounded, ← bits, UInt64.ofNat_toNat]

theorem spell_eq (number : x.isNaN = false) :
    x.spell = String.ofList (x.sign ++
      if x.isInfinite then "Infinity".toList else x.spellMagnitude) := by
  rw [spell, number, sign]
  cases x.isNegative <;> rfl

theorem read?_sign {cs : List Char} (plain : cs.head? ≠ some '-') :
    read? (x.sign ++ cs) = (readUnsigned? cs).map fun y => if x.isNegative then neg y else y := by
  rw [sign]
  cases x.isNegative
  · exact (read?_of_plain plain).trans Option.map_id'.symm
  · rfl

/-- A finite number is a sign, digits, a point and digits, without a superfluous zero in front and
with as few digits as read back as the number. -/
theorem spell_finite (finite : x.isFinite) :
    ∃ whole fraction, x.spell = String.ofList (x.sign ++ (whole ++ '.' :: fraction)) ∧
      Decimal whole fraction (ofMagnitude x.magnitude) ∧
      (whole.head? = some '0' → whole = ['0']) ∧
      ∀ n e, ofDecimal n e = ofMagnitude x.magnitude →
        (Digits.significant (whole ++ fraction)).length ≤ (Digits.ofNat n).length := by
  obtain ⟨whole, fraction, spelled, shortest⟩ := x.spellMagnitude_spec
  refine ⟨whole, fraction, ?_, shortest⟩
  rw [spell_eq (isNaN_of_isFinite finite), isInfinite_of_isFinite finite, ← spelled]
  rfl

/-- A finite number without a sign is spelled as a decimal nearest to it. -/
theorem spell_spec (unsigned : x.isNegative = false) (finite : x.isFinite) :
    ∃ whole fraction, x.spell = String.ofList (whole ++ '.' :: fraction) ∧
      Decimal whole fraction x := by
  obtain ⟨whole, fraction, spelled, decimal, -⟩ := spell_finite finite
  have same := eq_of_magnitude (isNaN_of_isFinite finite)
  rw [sign, unsigned] at spelled
  rw [unsigned] at same
  exact ⟨whole, fraction, spelled, same ▸ decimal⟩

theorem read?_spell (finite : x.isFinite) : read? x.spell.toList = some x := by
  obtain ⟨whole, fraction, spelled, decimal, -⟩ := spell_finite finite
  rw [spelled, String.toList_ofList, read?_sign decimal.plain, decimal.readUnsigned?,
    Option.map_some, eq_of_magnitude (isNaN_of_isFinite finite)]

theorem spell_infinite (infinite : x.isInfinite) :
    x.spell = String.ofList (x.sign ++ "Infinity".toList) := by
  rw [spell_eq (isNaN_of_isInfinite infinite), infinite, if_pos rfl]

theorem read?_spell_infinite (infinite : x.isInfinite) : read? x.spell.toList = none := by
  rw [spell_infinite infinite, String.toList_ofList, read?_sign (by decide)]
  rfl

theorem sign_injective (same : x.sign = y.sign) : x.isNegative = y.isNegative := by
  rw [sign, sign] at same
  cases hx : x.isNegative <;> cases hy : y.isNegative <;> rw [hx, hy] at same
  · cases same
  · cases same

/-- Numbers that are not undefined differ in their spellings. -/
theorem spell_injective (hx : x.isNaN = false) (hy : y.isNaN = false) (same : x.spell = y.spell) :
    x = y := by
  rcases isFinite_or_isInfinite hx with finite | infinite
  · have read := read?_spell finite
    rw [same] at read
    rcases isFinite_or_isInfinite hy with finite' | infinite'
    · exact Option.some.inj (read.symm.trans (read?_spell finite'))
    · cases read.symm.trans (read?_spell_infinite infinite')
  · have unread := read?_spell_infinite infinite
    rcases isFinite_or_isInfinite hy with finite' | infinite'
    · rw [same, read?_spell finite'] at unread
      cases unread
    · rw [spell_infinite infinite, spell_infinite infinite'] at same
      have signs := sign_injective (List.append_cancel_right (String.ofList_injective same))
      rw [← eq_of_magnitude hx, ← eq_of_magnitude hy, signs, beq_iff_eq.mp infinite,
        beq_iff_eq.mp infinite']

end ElTemplate.Binary64
