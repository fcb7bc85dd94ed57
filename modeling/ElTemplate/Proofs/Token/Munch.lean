import ElTemplate.Proofs.Token.Respell

/-!
# Maximal munch

Inside a block the scanner takes the longest token that the text ahead begins with, and fails
exactly if it begins with none. There is one exception: digits keep a point to their right apart if
the point belongs to a property of theirs, although digits with a point are a float.
-/

namespace ElTemplate

open Text

namespace Lexical

/-- Digits and the point of a property are ahead: behind the point begins an identifier, but no
exponent. -/
def PointsAtProperty (cs : List Char) : Prop :=
  ∃ ds c tail, cs = ds ++ '.' :: c :: tail ∧ IsDigits ds ∧ isIdentifierStart c ∧
    ∀ e, e <+: c :: tail → ¬ IsExponent e

/-- The token that is to be read where the text is ahead: the longest one that it begins with, but
digits alone before the point of a property. -/
structure Munch (cs slice : List Char) (kind : Token.Kind) (image : List Char) : Prop where
  spells : Spells slice kind image
  ahead : slice <+: cs
  longest : ¬ PointsAtProperty cs → ∀ {slice' kind' image'}, Spells slice' kind' image' →
    slice' <+: cs → slice'.length ≤ slice.length
  digits : PointsAtProperty cs → kind = .integer ∧ slice = cs.takeWhile Char.isDigit

/-- Two characters ahead decide which operator is taken, and no operator ahead is longer. -/
theorem exists_operator {operator : List Char × Token.Kind} {cs : List Char}
    (listed : operator ∈ Lexeme.operators) (ahead : operator.1 <+: cs) :
    ∃ taken, Lexeme.operator? cs = some taken ∧ operator.1.length ≤ taken.1.length := by
  have sorted : Lexeme.operators.Pairwise fun a b => b.1.length ≤ a.1.length := by decide
  have matching : operator.1.isPrefixOf cs := List.isPrefixOf_iff_prefix.mpr ahead
  have found : (Lexeme.operator? cs).isSome := List.find?_isSome.mpr ⟨operator, listed, matching⟩
  obtain ⟨taken, found⟩ := Option.isSome_iff_exists.mp found
  refine ⟨taken, found, ?_⟩
  obtain ⟨-, before, behind, parted, earlier⟩ := List.find?_eq_some_iff_append.mp found
  rw [parted] at listed sorted
  rcases List.mem_append.mp listed with early | late
  · have other := earlier operator early
    rw [matching] at other
    cases other
  · rcases List.mem_cons.mp late with rfl | late
    · exact Nat.le_refl _
    · exact (List.pairwise_cons.mp (List.pairwise_append.mp sorted).2.1).1 operator late

/-- No two tokens are to be read that differ in length. -/
theorem Munch.length_eq {cs slice slice' image image' : List Char} {kind kind' : Token.Kind}
    (h : Munch cs slice kind image) (h' : Munch cs slice' kind' image') :
    slice.length = slice'.length := by
  by_cases property : PointsAtProperty cs
  · rw [(h.digits property).2, (h'.digits property).2]
  · exact Nat.le_antisymm (h'.longest property h.spells h.ahead)
      (h.longest property h'.spells h'.ahead)

end Lexical

namespace Lexeme

open Lexical

variable {c : Char} {cs f tail slice image : List Char} {kind : Token.Kind} {l : Lexeme}

theorem namesProperty_iff : namesProperty cs ↔
    ∃ c tail, cs = c :: tail ∧ isIdentifierStart c ∧ ∀ e, e <+: cs → ¬ IsExponent e := by
  cases cs with
  | nil => simp [namesProperty]
  | cons c tail =>
    rw [namesProperty, Bool.and_eq_true, beq_iff_eq, exponentLength_eq_zero_iff]
    simp

/-- Before the point of a property the digits are taken. -/
theorem numberExtent_property (h : PointsAtProperty cs) :
    startsNumber cs ∧ numberExtent cs = (.integer, Digits.count cs) := by
  obtain ⟨ds, c, tail, rfl, run, start, plain⟩ := h
  have property : namesProperty (c :: tail) := namesProperty_iff.mpr ⟨c, tail, rfl, start, plain⟩
  have ends : ('.' :: c :: tail).head?.any Char.isDigit = false := rfl
  rw [numberExtent_point run.digits, if_pos property, Digits.count_append run.digits ends]
  exact ⟨startsNumber_digits run.digits run.some, rfl⟩

/-- The lexeme reaches at least as far as the token that is spelled ahead, and is that token if it
reaches no further. -/
structure Reaches (cs slice : List Char) (kind : Token.Kind) (image : List Char) (l : Lexeme) :
    Prop where
  length_le : ¬ PointsAtProperty cs → slice.length ≤ l.length
  same : l.length = slice.length → l.kind = kind ∧ l.image = image

/-- A number reaches a token whose image is its spelling. -/
theorem reaches_number {cs : List Char} {kind' : Token.Kind} {n : Nat} (ahead : slice <+: cs)
    (extent : numberExtent cs = (kind', n)) (far : ¬ PointsAtProperty cs → slice.length ≤ n)
    (same : n = slice.length → kind' = kind) :
    Reaches cs slice kind slice (verbatim (numberExtent cs).1 (numberExtent cs).2 cs) := by
  obtain ⟨f, rfl⟩ := ahead
  rw [extent]
  refine ⟨far, fun length => ⟨same length, ?_⟩⟩
  change n = slice.length at length
  rw [verbatim, length, List.take_left]

/-- A number is as long as a float with a point that is ahead, unless the point belongs to a
property. -/
theorem numberExtent_pointed_cases {whole fraction exponent f : List Char}
    (wholeDigits : ∀ c ∈ whole, c.isDigit) (fractionDigits : ∀ c ∈ fraction, c.isDigit)
    (some : whole = [] → fraction ≠ []) (suffix : exponent = [] ∨ IsExponent exponent) :
    (∃ n, numberExtent (whole ++ '.' :: (fraction ++ exponent ++ f)) = (.float, n) ∧
        whole.length + 1 + fraction.length + exponent.length ≤ n) ∨
      numberExtent (whole ++ '.' :: (fraction ++ exponent ++ f)) = (.integer, whole.length) ∧
        PointsAtProperty (whole ++ '.' :: (fraction ++ exponent ++ f)) := by
  rw [numberExtent_point wholeDigits]
  by_cases property : namesProperty (fraction ++ exponent ++ f)
  · rw [if_pos property]
    obtain ⟨c, tail, behind, start, plain⟩ := namesProperty_iff.mp property
    refine .inr ⟨rfl, whole, c, tail, by rw [behind], ⟨?_, wholeDigits⟩, start, behind ▸ plain⟩
    rintro rfl
    obtain ⟨d, ds, rfl⟩ := List.exists_cons_of_ne_nil (some rfl)
    have digit : (d :: ds ++ exponent ++ f).head?.any Char.isDigit :=
      fractionDigits d List.mem_cons_self
    rw [namesProperty_of_digit digit] at property
    cases property
  · rw [if_neg property]
    refine .inl ⟨_, rfl, ?_⟩
    rcases suffix with rfl | exponentSuffix
    · have counted := Digits.length_le_count fractionDigits f
      rw [List.append_nil, List.length_nil]
      omega
    · have counted := Digits.count_append fractionDigits (exponentSuffix.not_digit f)
      have far := length_le_exponentLength exponentSuffix f
      rw [List.append_assoc, counted, List.drop_left]
      omega

/-- A number reaches every float ahead. -/
theorem reaches_float {cs : List Char} (ahead : slice <+: cs) (float : IsFloat slice) :
    startsNumber cs ∧
      Reaches cs slice .float slice (verbatim (numberExtent cs).1 (numberExtent cs).2 cs) := by
  obtain ⟨f, rfl⟩ := ahead
  have begins : slice <+: slice ++ f := List.prefix_append slice f
  cases float with
  | @pointed whole fraction exponent wholeDigits fractionDigits some suffix =>
    constructor
    · by_cases empty : whole = []
      · obtain ⟨d, ds, rfl⟩ := List.exists_cons_of_ne_nil (some empty)
        have digit : d.isDigit := fractionDigits d List.mem_cons_self
        simp [empty, startsNumber, digit]
      · rw [List.append_assoc]
        exact startsNumber_digits wholeDigits empty
    · have length : (whole ++ '.' :: (fraction ++ exponent)).length =
          whole.length + 1 + fraction.length + exponent.length := by
        simp only [List.length_append, List.length_cons]
        omega
      have cases := numberExtent_pointed_cases (f := f) wholeDigits fractionDigits some suffix
      rw [← List.cons_append, ← List.append_assoc] at cases
      rcases cases with ⟨n, extent, far⟩ | ⟨extent, property⟩
      · exact reaches_number begins extent (fun _ => by omega) fun _ => rfl
      · exact reaches_number begins extent (fun other => absurd property other) (by omega)
  | @whole whole exponent digits suffix =>
    rw [List.append_assoc]
    refine ⟨startsNumber_digits digits.digits digits.some, ?_⟩
    have far := length_le_exponentLength suffix f
    have some := List.length_pos_iff.mpr suffix.ne_nil
    have extent := numberExtent_whole digits.digits (suffix.not_digit f) (suffix.not_point f)
    rw [if_neg (by omega)] at extent
    refine reaches_number ⟨f, List.append_assoc ..⟩ extent (fun _ => ?_) fun _ => rfl
    rw [List.length_append]
    omega

/-- No operator but the point begins a number, and the number is longer. -/
theorem reaches_point {operator : List Char × Token.Kind} (listed : operator ∈ operators)
    (ahead : operator.1 <+: c :: cs) (starts : startsNumber (c :: cs)) :
    Reaches (c :: cs) operator.1 operator.2 operator.1
      (verbatim (numberExtent (c :: cs)).1 (numberExtent (c :: cs)).2 (c :: cs)) := by
  have heads : ∀ operator ∈ operators, operator.1.head?.all fun c => !c.isDigit &&
      (c != '.' || operator.1.length == 1) := by decide
  have head : operator.1.head? = some c := by
    have some : operator.1 ≠ [] :=
      (by decide : ∀ operator ∈ operators, operator.1 ≠ []) operator listed
    obtain ⟨d, ds, spelling⟩ := List.exists_cons_of_ne_nil some
    rw [spelling] at ahead ⊢
    rw [(List.cons_prefix_cons.mp ahead).1]
    rfl
  have spec := heads operator listed
  rw [head, Option.all_some, Bool.and_eq_true, Bool.not_eq_true'] at spec
  obtain ⟨nondigit, point⟩ := spec
  rw [startsNumber, nondigit, Bool.false_or, Bool.and_eq_true, beq_iff_eq] at starts
  obtain ⟨rfl, digit⟩ := starts
  have length : operator.1.length = 1 := by simpa using point
  have counted := Digits.count_pos digit
  have extent : numberExtent ([] ++ '.' :: cs) = _ := numberExtent_point (List.forall_mem_nil _) cs
  rw [List.nil_append, namesProperty_of_digit digit, List.length_nil] at extent
  exact reaches_number ahead extent (fun _ => by omega) (by omega)

/-- The operator that is taken reaches every operator ahead. -/
theorem reaches_operator {operator taken : List Char × Token.Kind} (listed : operator ∈ operators)
    (ahead : operator.1 <+: cs) (found : operator? cs = some taken)
    (longer : operator.1.length ≤ taken.1.length) :
    Reaches cs operator.1 operator.2 operator.1 (verbatim taken.2 taken.1.length cs) := by
  obtain ⟨listed', ahead'⟩ := operator?_some found
  refine ⟨fun _ => longer, fun length => ?_⟩
  have spelling : taken.1 = operator.1 := prefix_unique ahead' ahead length
  have once : ∀ a ∈ operators, ∀ b ∈ operators, a.1 = b.1 → a.2 = b.2 := by decide
  obtain ⟨f, rfl⟩ := ahead'
  rw [verbatim, List.take_left]
  exact ⟨once _ listed' _ listed spelling, spelling⟩

/-- Whatever token is spelled ahead, the scanner reaches it. -/
theorem exists_reaches (spells : Spells slice kind image) (ahead : slice <+: c :: cs) :
    ∃ l, ofBlock c cs = .ok l ∧ Reaches (c :: cs) slice kind image l := by
  cases spells with
  | operator listed =>
    by_cases starts : startsNumber (c :: cs)
    · exact ⟨_, ofBlock_number starts, reaches_point listed ahead starts⟩
    · obtain ⟨taken, found, longer⟩ := exists_operator listed ahead
      refine ⟨verbatim taken.2 taken.1.length (c :: cs), ?_,
        reaches_operator listed ahead found longer⟩
      simp only [ofBlock, starts, found, Bool.false_eq_true, if_false]
  | @word d ws start part =>
    obtain ⟨rfl, f, rfl⟩ := List.cons_prefix_cons.mp ahead
    refine ⟨_, ofBlock_start start _, fun _ => ?_, fun length => ?_⟩
    · rw [List.takeWhile_append_of_pos part]
      simp
    · rw [List.takeWhile_append_of_pos part] at length ⊢
      have none : f.takeWhile isIdentifierPart = [] := by simpa using length
      rw [none, List.append_nil]
      exact ⟨rfl, rfl⟩
  | integer digits =>
    have starts : startsNumber (c :: cs) := by
      obtain ⟨f, parted⟩ := ahead
      rw [← parted]
      exact startsNumber_digits digits.digits digits.some
    have counted : slice.length ≤ Digits.count (c :: cs) := by
      obtain ⟨f, parted⟩ := ahead
      rw [← parted]
      exact Digits.length_le_count digits.digits f
    refine ⟨_, ofBlock_number starts, ?_⟩
    rcases numberExtent_cases (c :: cs) with extent | ⟨n, longer, extent⟩
    · exact reaches_number ahead extent (fun _ => counted) fun _ => rfl
    · exact reaches_number ahead extent (fun _ => by omega) (by omega)
  | float float =>
    obtain ⟨starts, reaches⟩ := reaches_float ahead float
    exact ⟨_, ofBlock_number starts, reaches⟩
  | @string quote body _ hquote quoted =>
    obtain ⟨rfl, f, rfl⟩ := List.cons_prefix_cons.mp ahead
    rw [List.append_assoc, List.singleton_append, ofBlock_quoted hquote quoted]
    refine ⟨_, rfl, fun _ => ?_, fun _ => ⟨rfl, rfl⟩⟩
    simp

/-- What is read is what is to be read. -/
theorem munch_of_ofBlock (h : ofBlock c cs = .ok l) :
    ∃ slice, l.length = slice.length ∧ Munch (c :: cs) slice l.kind l.image := by
  obtain ⟨slice, f, parted, length, spells⟩ := spells_of_ofBlock h
  have ahead : slice <+: c :: cs := ⟨f, parted.symm⟩
  refine ⟨slice, length, spells, ahead, ?_, ?_⟩
  · intro apart slice' kind' image' spells' ahead'
    obtain ⟨l', lexed, reaches⟩ := exists_reaches spells' ahead'
    cases h.symm.trans lexed
    exact length ▸ reaches.length_le apart
  · intro property
    obtain ⟨starts, extent⟩ := numberExtent_property property
    rw [ofBlock_number starts, extent] at h
    cases h
    have run : (c :: cs).takeWhile Char.isDigit <+: c :: cs := List.takeWhile_prefix _
    have same : ((c :: cs).takeWhile Char.isDigit).length = slice.length := length
    exact ⟨rfl, prefix_unique ahead run same.symm⟩

/-- What is to be read is read. -/
theorem ofBlock_of_munch (h : Munch (c :: cs) slice kind image) :
    ofBlock c cs = .ok ⟨kind, image, slice.length⟩ := by
  obtain ⟨l, lexed, reaches⟩ := exists_reaches h.spells h.ahead
  obtain ⟨slice', length, munch⟩ := munch_of_ofBlock lexed
  have same : l.length = slice.length := length.trans (munch.length_eq h)
  obtain ⟨rfl, rfl⟩ := reaches.same same
  rw [lexed, ← same]

/-- Nothing is read exactly if no token is spelled ahead. -/
theorem ofBlock_error_iff : (∃ fault, ofBlock c cs = .error fault) ↔
    ∀ slice kind image, Spells slice kind image → ¬ slice <+: c :: cs := by
  constructor
  · rintro ⟨fault, failed⟩ slice kind image spells ahead
    obtain ⟨l, lexed, -⟩ := exists_reaches spells ahead
    cases failed.symm.trans lexed
  · intro none
    cases lexed : ofBlock c cs with
    | error fault => exact ⟨fault, rfl⟩
    | ok l =>
      obtain ⟨slice, f, parted, -, spells⟩ := spells_of_ofBlock lexed
      exact absurd ⟨f, parted.symm⟩ (none slice l.kind l.image spells)

end Lexeme

namespace Scanner

open Lexical

/-- At a character that is no white space a step inside a block gives a token exactly if it is the
one to be read, and an error exactly if no token is spelled ahead. -/
theorem next_munches {c : Char} {cs : List Char} (nonblank : isBlank c = false) (p : Nat) :
    (∀ t s', next ⟨.block, c :: cs, p⟩ = (.ok t, s') ↔ ∃ slice rest, c :: cs = slice ++ rest ∧
      Munch (c :: cs) slice t.kind t.image.toList ∧ t.position = p ∧
      s' = ⟨Mode.block.after t.kind, rest, p + slice.length⟩) ∧
    ((∃ e s', next ⟨.block, c :: cs, p⟩ = (.error e, s')) ↔
      ∀ slice kind image, Spells slice kind image → ¬ slice <+: c :: cs) := by
  constructor
  · intro t s'
    constructor
    · intro h
      cases lexed : Lexeme.ofBlock c cs with
      | error fault => cases h.symm.trans (next_of_ofBlock_error nonblank lexed p)
      | ok l =>
        cases h.symm.trans (next_of_ofBlock nonblank lexed p)
        obtain ⟨slice, length, munch⟩ := Lexeme.munch_of_ofBlock lexed
        obtain ⟨rest, parted⟩ := munch.ahead
        refine ⟨slice, rest, parted.symm, ?_, rfl, ?_⟩
        · rwa [String.toList_ofList]
        · rw [length, ← parted, List.drop_left]
    · rintro ⟨slice, rest, parted, munch, rfl, rfl⟩
      rw [next_of_ofBlock nonblank (Lexeme.ofBlock_of_munch munch), parted, List.drop_left,
        String.ofList_toList]
  · rw [← Lexeme.ofBlock_error_iff]
    cases lexed : Lexeme.ofBlock c cs with
    | error fault =>
      exact ⟨fun _ => ⟨fault, rfl⟩, fun _ => ⟨_, _, next_of_ofBlock_error nonblank lexed p⟩⟩
    | ok l =>
      constructor
      · rintro ⟨e, s', failed⟩
        cases failed.symm.trans (next_of_ofBlock nonblank lexed p)
      · rintro ⟨fault, failed⟩
        cases failed

/-- A mark without digits makes no exponent, so the point is a property's; with digits the number
goes on behind it. -/
theorem next_munches_point :
    isBlank '1' = false ∧
      Munch ['1', '.', 'e', '+', 'a'] ['1'] .integer ['1'] ∧
      Munch ['1', '.', 'e', '5', 'x'] ['1', '.', 'e', '5'] .float ['1', '.', 'e', '5'] := by
  have nonblank : isBlank '1' = false := by decide
  refine ⟨nonblank, ?_, ?_⟩
  · have step : next ⟨.block, ['1', '.', 'e', '+', 'a'], 0⟩ =
        (.ok ⟨.integer, "1", 0⟩, ⟨.block, ['.', 'e', '+', 'a'], 1⟩) := by decide
    obtain ⟨slice, rest, parted, munch, -, after⟩ := ((next_munches nonblank 0).1 _ _).mp step
    obtain rfl : _ = rest := congrArg Scanner.rest after
    obtain rfl : ['1'] = slice := List.append_cancel_right parted
    exact munch
  · have step : next ⟨.block, ['1', '.', 'e', '5', 'x'], 0⟩ =
        (.ok ⟨.float, "1.e5", 0⟩, ⟨.block, ['x'], 4⟩) := by decide
    obtain ⟨slice, rest, parted, munch, -, after⟩ := ((next_munches nonblank 0).1 _ _).mp step
    obtain rfl : _ = rest := congrArg Scanner.rest after
    obtain rfl : ['1', '.', 'e', '5'] = slice := List.append_cancel_right parted
    exact munch

end Scanner

end ElTemplate
