import ElTemplate.Number.Decimal
import ElTemplate.Proofs.Number.Digits
import ElTemplate.Proofs.Number.Ratio

/-!
# Decimals

A decimal is a run of digits, a point and another run of digits. The number nearest to it depends on
its value alone, and is the one that is read. The positional spelling of digits and a power of ten
is a decimal of that value, in which no zero stands in front of other digits before the point.
-/

namespace ElTemplate.Binary64

theorem roundHalfEven_of_small {num den : ℕ} (h : 2 * num < den) : roundHalfEven num den = 0 := by
  have less : num < den := by omega
  have halved : 2 * (num % den) < den := by rwa [Nat.mod_eq_of_lt less]
  rw [roundHalfEven, if_pos halved, Nat.div_eq_of_lt less]

/-- Beyond the range everything is infinite. -/
theorem ofRatio_of_large {num den k : ℕ} (hden : 0 < den) (hk : 1025 ≤ k)
    (large : den * 2 ^ k ≤ num) : ofRatio num den = ofMagnitude infinityPattern := by
  have hnum : 0 < num := lt_of_lt_of_le (Nat.mul_pos hden (Nat.two_pow_pos k)) large
  have positive : (0 : ℚ) < (num : ℚ) / den :=
    div_pos (by exact_mod_cast hnum) (by exact_mod_cast hden)
  have log : (k : ℤ) ≤ floorLog2 num den := by
    rw [floorLog2_eq_log hnum hden, ← Int.zpow_le_iff_le_log (by decide) positive,
      zpow_le_div_iff two_pos hden, Int.toNat_natCast, Int.toNat_neg_natCast,
      pow_zero, mul_one]
    exact large
  have beyond : ∀ m : ℕ, infinityPattern ≤
      (max (floorLog2 num den - fractionBits) minExponent - minExponent).toNat *
        2 ^ fractionBits + m := by
    intro m
    have places : 2047 ≤
        (max (floorLog2 num den - fractionBits) minExponent - minExponent).toNat := by
      simp only [fractionBits, minExponent]
      omega
    have pattern : infinityPattern = 2047 * 2 ^ fractionBits := rfl
    rw [pattern]
    exact Nat.le_add_right_of_le (Nat.mul_le_mul_right _ places)
  rw [ofRatio, if_neg (Nat.ne_of_gt hnum)]
  simp only [ofMagnitude, Nat.min_self, Nat.min_eq_right (beyond _)]

/-- Below half of the smallest number everything is zero. -/
theorem ofRatio_of_small {num den k : ℕ} (hden : 0 < den) (hk : 1076 ≤ k)
    (small : num * 2 ^ k ≤ den) : ofRatio num den = ofMagnitude 0 := by
  rcases Nat.eq_zero_or_pos num with rfl | hnum
  · rw [ofRatio, if_pos rfl]
  have hden' : (0 : ℚ) < den := by exact_mod_cast hden
  have positive : (0 : ℚ) < (num : ℚ) / den := div_pos (by exact_mod_cast hnum) hden'
  have log : floorLog2 num den < -(k : ℤ) + 1 := by
    rw [floorLog2_eq_log hnum hden, ← Int.lt_zpow_iff_log_lt (by decide) positive,
      Nat.cast_ofNat, zpow_add₀ (by decide), zpow_neg, zpow_natCast, zpow_one,
      inv_mul_eq_div, div_lt_div_iff₀ hden' (by positivity)]
    have strict : num * 2 ^ k < 2 * den := by omega
    exact_mod_cast strict
  have last : max (floorLog2 num den - fractionBits) minExponent = minExponent := by
    simp only [fractionBits, minExponent]
    omega
  have halved : 2 * (num * 2 ^ (-minExponent).toNat) < den * 2 ^ minExponent.toNat := by
    have places : (-minExponent).toNat + 1 < k := by
      simp only [minExponent]
      omega
    have none : minExponent.toNat = 0 := rfl
    generalize (-minExponent).toNat = p at places
    rw [none, pow_zero, mul_one]
    calc 2 * (num * 2 ^ p) = num * 2 ^ (p + 1) := by rw [pow_succ]; ring
      _ < num * 2 ^ k := (Nat.mul_lt_mul_left hnum).mpr (Nat.pow_lt_pow_right (by decide) places)
      _ ≤ den := small
  rw [ofRatio, if_neg (Nat.ne_of_gt hnum)]
  simp only [last, roundHalfEven_of_small halved, sub_self, Int.toNat_zero, zero_mul, add_zero]

/-- The answers given without raising ten to the exponent are those of the quotient. -/
theorem ofDecimal_eq {digits : ℕ} (hdigits : 0 < digits) (exponent : ℤ) :
    ofDecimal digits exponent =
      ofRatio (digits * 10 ^ exponent.toNat) (10 ^ (-exponent).toNat) := by
  have hdigits' : digits ≠ 0 := Nat.ne_of_gt hdigits
  rw [ofDecimal, if_neg hdigits']
  split
  · next large =>
    have whole : (-exponent).toNat = 0 := by omega
    rw [whole, pow_zero]
    refine (ofRatio_of_large (k := 3 * exponent.toNat) Nat.one_pos (by omega) ?_).symm
    calc 1 * 2 ^ (3 * exponent.toNat) = 8 ^ exponent.toNat := by rw [one_mul, pow_mul]; rfl
      _ ≤ 10 ^ exponent.toNat := Nat.pow_le_pow_left (by decide) _
      _ ≤ digits * 10 ^ exponent.toNat := Nat.le_mul_of_pos_left _ hdigits
  · split
    · next small =>
      have whole : exponent.toNat = 0 := by omega
      rw [whole, pow_zero, mul_one]
      refine (ofRatio_of_small (k := (-exponent).toNat - (digits.log2 + 1)) (by positivity)
        (by omega) ?_).symm
      have high : digits ≤ 2 ^ (digits.log2 + 1) := Nat.lt_log2_self.le
      calc digits * 2 ^ ((-exponent).toNat - (digits.log2 + 1))
          ≤ 2 ^ (digits.log2 + 1) * 2 ^ ((-exponent).toNat - (digits.log2 + 1)) :=
            Nat.mul_le_mul_right _ high
        _ = 2 ^ (-exponent).toNat := by
            rw [← pow_add]
            congr 1
            omega
        _ ≤ 10 ^ (-exponent).toNat := Nat.pow_le_pow_left (by decide) _
    · rfl

/-- A zero behind the digits makes up for a place. -/
theorem ofDecimal_shift (digits k : ℕ) (exponent : ℤ) :
    ofDecimal (digits * 10 ^ k) (exponent - k) = ofDecimal digits exponent := by
  rcases Nat.eq_zero_or_pos digits with rfl | hdigits
  · rw [zero_mul, ofDecimal, ofDecimal, if_pos rfl, if_pos rfl]
  rw [ofDecimal_eq (Nat.mul_pos hdigits (by positivity)), ofDecimal_eq hdigits]
  apply ofRatio_congr (by positivity) (by positivity)
  have places : k + (exponent - k).toNat + (-exponent).toNat =
      exponent.toNat + (-(exponent - k)).toNat := by omega
  rw [mul_assoc, mul_assoc, mul_assoc, ← pow_add, ← pow_add, ← pow_add, ← add_assoc, places]

/-- Two runs of digits, with a point between them, are a decimal nearest to the number. -/
structure Decimal (whole fraction : List Char) (x : Binary64) : Prop where
  whole_ne_nil : whole ≠ []
  fraction_ne_nil : fraction ≠ []
  whole_digits : ∀ c ∈ whole, c.isDigit
  fraction_digits : ∀ c ∈ fraction, c.isDigit
  value : ofDecimal (Digits.toNat (whole ++ fraction)) (-fraction.length) = x

/-- What does not begin with a minus sign is read as an unsigned decimal. -/
theorem read?_of_plain {cs : List Char} (plain : cs.head? ≠ some '-') :
    read? cs = readUnsigned? cs := by
  rw [read?]
  rintro rest rfl
  exact plain rfl

namespace Decimal

variable {whole fraction : List Char} {x : Binary64}

theorem readUnsigned? (h : Decimal whole fraction x) :
    Binary64.readUnsigned? (whole ++ '.' :: fraction) = some x := by
  have ends : (('.' :: fraction).head?.any Char.isDigit) = false := rfl
  have ended : (([] : List Char).head?.any Char.isDigit) = false := rfl
  have fractionTaken : fraction.takeWhile Char.isDigit = fraction := by
    simpa using Digits.takeWhile_append h.fraction_digits ended
  have fractionDropped : fraction.dropWhile Char.isDigit = [] := by
    simpa using Digits.dropWhile_append h.fraction_digits ended
  simp only [Binary64.readUnsigned?, Digits.takeWhile_append h.whole_digits ends,
    Digits.dropWhile_append h.whole_digits ends, fractionTaken, fractionDropped,
    h.whole_ne_nil, false_and, if_false, readExponent?, Option.map_some, zero_sub, h.value]

theorem plain (h : Decimal whole fraction x) :
    (whole ++ '.' :: fraction).head? ≠ some '-' := by
  rw [List.head?_append_of_ne_nil _ h.whole_ne_nil]
  intro minus
  exact absurd (h.whole_digits '-' (List.mem_of_mem_head? minus)) (by decide)

theorem read? (h : Decimal whole fraction x) :
    Binary64.read? (whole ++ '.' :: fraction) = some x :=
  (read?_of_plain h.plain).trans h.readUnsigned?

end Decimal

/-- A number's digits and the zeros that fill them up are as many as the point needs. -/
theorem exists_zeros (cs : List Char) :
    ∃ k, cs = (cs.reverse.dropWhile (· == '0')).reverse ++ List.replicate k '0' := by
  refine ⟨(cs.reverse.takeWhile (· == '0')).length, ?_⟩
  have zeros : cs.reverse.takeWhile (· == '0') =
      List.replicate (cs.reverse.takeWhile (· == '0')).length '0' := by
    rw [List.eq_replicate_iff]
    refine ⟨rfl, fun c hc => ?_⟩
    simpa using List.all_eq_true.mp List.all_takeWhile c hc
  have split := List.takeWhile_append_dropWhile (p := (· == '0')) (l := cs.reverse)
  rw [zeros] at split
  have reversed := congrArg List.reverse split
  rw [List.reverse_append, List.reverse_replicate, List.reverse_reverse] at reversed
  exact reversed.symm

/-- The zeros that end a fraction do not count, and one is written if there is nothing else. -/
theorem Decimal.of_zeros {whole fraction : List Char} (some : whole ≠ [])
    (wholeDigits : ∀ c ∈ whole, c.isDigit) (fractionDigits : ∀ c ∈ fraction, c.isDigit) (k : ℕ) :
    Decimal whole (if fraction = [] then ['0'] else fraction)
      (ofDecimal (Digits.toNat (whole ++ fraction ++ List.replicate k '0'))
        (-(fraction.length + k : ℕ))) := by
  have moved : ofDecimal (Digits.toNat (whole ++ fraction ++ List.replicate k '0'))
      (-(fraction.length + k : ℕ)) =
        ofDecimal (Digits.toNat (whole ++ fraction)) (-fraction.length) := by
    rw [Digits.toNat_append, Digits.toNat_replicate_zero, List.length_replicate, add_zero,
      ← ofDecimal_shift _ k (-fraction.length)]
    congr 1
    push_cast
    ring
  rw [moved]
  split
  · next none =>
    refine ⟨some, List.cons_ne_nil _ _, wholeDigits, List.forall_mem_singleton.mpr rfl, ?_⟩
    have tenfold : Digits.toNat (whole ++ ['0']) = Digits.toNat whole * 10 ^ 1 := by
      rw [Digits.toNat_append]
      rfl
    rw [tenfold, none, List.append_nil, List.length_nil, Nat.cast_zero, neg_zero,
      ← ofDecimal_shift (Digits.toNat whole) 1 0]
    rfl
  · next nonempty => exact ⟨some, nonempty, wholeDigits, fractionDigits, rfl⟩

/-- Up to the zeros at both ends, the point is all that is added to the digits. -/
theorem pointed_split (ds : List Char) (places : ℕ) :
    ∃ whole fraction k,
      pointed ds places = whole ++ '.' :: (if fraction = [] then ['0'] else fraction) ∧
      whole ++ fraction ++ List.replicate k '0' =
        List.replicate (places + 1 - ds.length) '0' ++ ds ∧
      fraction.length + k = places := by
  have long : places < (List.replicate (places + 1 - ds.length) '0' ++ ds).length := by
    rw [List.length_append, List.length_replicate]
    omega
  rw [pointed]
  generalize List.replicate (places + 1 - ds.length) '0' ++ ds = padded at long
  obtain ⟨k, split⟩ := exists_zeros (padded.drop (padded.length - places))
  refine ⟨_, _, k, rfl, ?_, ?_⟩
  · rw [List.append_assoc, ← split, List.take_append_drop]
  · have lengths := congrArg List.length split
    rw [List.length_drop, List.length_append, List.length_replicate] at lengths
    omega

/-- A point among digits moves their value by as many places. Zeros are all that is added or left
out, and one stands before the point only if no other digit does. -/
theorem pointed_spec {ds : List Char} (digits : ∀ c ∈ ds, c.isDigit) (places : ℕ) :
    ∃ whole fraction, pointed ds places = whole ++ '.' :: fraction ∧
      Decimal whole fraction (ofDecimal (Digits.toNat ds) (-places)) ∧
      (whole.head? = some '0' → whole = ['0'] ∨ ds.head? = some '0') ∧
      Digits.significant (whole ++ fraction) = Digits.significant ds := by
  obtain ⟨whole, fraction, k, spelled, joined, length⟩ := pointed_split ds places
  have run : ∀ c ∈ whole ++ fraction ++ List.replicate k '0', c.isDigit := by
    rw [joined]
    exact List.forall_mem_append.mpr ⟨fun _ => Digits.isDigit_of_mem_replicate, digits⟩
  obtain ⟨⟨wholeDigits, fractionDigits⟩, -⟩ : (_ ∧ _) ∧ _ := by
    rwa [List.forall_mem_append, List.forall_mem_append] at run
  have lengths := congrArg List.length joined
  simp only [List.length_append, List.length_replicate] at lengths
  obtain ⟨c, cs, rfl⟩ := List.exists_cons_of_length_pos (l := whole) (by omega)
  refine ⟨c :: cs, _, spelled, ?_, ?_, ?_⟩
  · have value : Digits.toNat (List.replicate (places + 1 - ds.length) '0' ++ ds) =
        Digits.toNat ds := by
      rw [Digits.toNat_append, Digits.toNat_replicate_zero, zero_mul, zero_add]
    rw [← value, ← joined, ← length]
    exact Decimal.of_zeros (List.cons_ne_nil c cs) wholeDigits fractionDigits k
  · rintro ⟨rfl⟩
    rcases Nat.lt_or_ge places ds.length with inside | outside
    · have none : places + 1 - ds.length = 0 := by omega
      rw [none, List.replicate_zero, List.nil_append] at joined
      rw [← joined]
      exact .inr rfl
    · rw [List.length_cons] at lengths
      obtain rfl : cs = [] := List.eq_nil_of_length_eq_zero (by omega)
      exact .inl rfl
  · have padded := congrArg Digits.significant joined
    rw [Digits.significant_append_zeros, Digits.significant_zeros_append] at padded
    split
    · next none =>
      rw [none, List.append_nil] at padded
      rw [← padded]
      exact Digits.significant_append_zeros _ 1
    · exact padded

theorem positional_spec (digits : ℕ) (exponent : ℤ) :
    ∃ whole fraction, positional digits exponent = whole ++ '.' :: fraction ∧
      Decimal whole fraction (ofDecimal digits exponent) ∧
      (digits ≠ 0 → whole.head? = some '0' → whole = ['0']) ∧
      Digits.significant (whole ++ fraction) = Digits.significant (Digits.ofNat digits) := by
  have run : ∀ c ∈ Digits.ofNat digits ++ List.replicate exponent.toNat '0', c.isDigit :=
    List.forall_mem_append.mpr ⟨fun _ => Digits.isDigit_of_mem_ofNat,
      fun _ => Digits.isDigit_of_mem_replicate⟩
  have value : ofDecimal (Digits.toNat (Digits.ofNat digits ++ List.replicate exponent.toNat '0'))
      (-(-exponent).toNat) = ofDecimal digits exponent := by
    rw [Digits.toNat_append, Digits.toNat_replicate_zero, add_zero, Digits.toNat_ofNat,
      List.length_replicate, ← ofDecimal_shift digits exponent.toNat exponent]
    congr 1
    omega
  obtain ⟨whole, fraction, spelled, decimal, head, significant⟩ :=
    pointed_spec run (-exponent).toNat
  rw [value] at decimal
  rw [Digits.significant_append_zeros] at significant
  refine ⟨whole, fraction, spelled, decimal, fun nonzero zero => ?_, significant⟩
  rcases head zero with single | first
  · exact single
  · rw [List.head?_append_of_ne_nil _ (Digits.ofNat_ne_nil digits)] at first
    exact absurd (Digits.eq_zero_of_head first) nonzero

theorem magnitude_ofMagnitude (pattern : ℕ) :
    (ofMagnitude pattern).magnitude = min pattern infinityPattern := by
  have small : min pattern infinityPattern < 2 ^ 63 :=
    lt_of_le_of_lt (Nat.min_le_right _ _) (by decide)
  have fits : min pattern infinityPattern < 2 ^ 64 := small.trans (by decide)
  rw [magnitude, ofMagnitude, UInt64.toNat_ofNat', Nat.mod_eq_of_lt fits, Nat.mod_eq_of_lt small]

theorem ofMagnitude_magnitude (pattern : ℕ) :
    ofMagnitude (ofMagnitude pattern).magnitude = ofMagnitude pattern := by
  rw [magnitude_ofMagnitude, ofMagnitude, ofMagnitude, Nat.min_assoc, Nat.min_self]

theorem isNaN_of_isFinite {x : Binary64} (finite : x.isFinite) : x.isNaN = false := by
  have below : x.magnitude < infinityPattern := by simpa [isFinite] using finite
  simp [isNaN, below.le]

theorem isInfinite_of_isFinite {x : Binary64} (finite : x.isFinite) : x.isInfinite = false := by
  have below : x.magnitude < infinityPattern := by simpa [isFinite] using finite
  simp [isInfinite, below.ne]

theorem isNaN_of_isInfinite {x : Binary64} (infinite : x.isInfinite) : x.isNaN = false := by
  simp [isNaN, beq_iff_eq.mp infinite]

theorem isNaN_ofMagnitude (pattern : ℕ) : (ofMagnitude pattern).isNaN = false := by
  rw [isNaN, magnitude_ofMagnitude]
  exact decide_eq_false (not_lt.mpr (Nat.min_le_right _ _))

theorem isFinite_or_isInfinite {x : Binary64} (number : x.isNaN = false) :
    x.isFinite ∨ x.isInfinite := by
  have bounded : x.magnitude ≤ infinityPattern := by simpa [isNaN] using number
  rcases bounded.lt_or_eq with below | infinite
  · exact .inl (decide_eq_true below)
  · exact .inr (beq_iff_eq.mpr infinite)

end ElTemplate.Binary64
