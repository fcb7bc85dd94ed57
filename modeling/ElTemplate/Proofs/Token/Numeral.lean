import ElTemplate.Proofs.Token.Lexical

/-!
# Where numbers end

A run of digits is an integer up to a character that is neither a digit nor a point nor the mark of
an exponent. Digits around a point are a float up to a character that is neither a digit nor such a
mark: a point is no second time part of a number.
-/

namespace ElTemplate

open Lexical Text

/-- No digit and no exponent is ahead that would belong to a number before it. -/
def Lexeme.EndsNumber (f : List Char) : Prop :=
  ∀ c ∈ f.head?, c.isDigit = false ∧ c ≠ 'e' ∧ c ≠ 'E'

namespace Lexeme

variable {c : Char} {f whole fraction : List Char}

theorem endsNumber_cons (digit : c.isDigit = false) (mark : c ≠ 'e' ∧ c ≠ 'E') :
    EndsNumber (c :: f) := by
  rintro c ⟨rfl⟩
  exact ⟨digit, mark⟩

/-- White space does not go on with a number. -/
theorem endsNumber_of_isBlank (blank : isBlank c) : EndsNumber (c :: f) := by
  have digit : c.isDigit = false := by
    refine Bool.eq_false_iff.mpr fun digit => ?_
    rw [isBlank_of_isDigit digit] at blank
    cases blank
  have mark : c ≠ 'e' ∧ c ≠ 'E' := by
    constructor <;> rintro rfl <;> cases blank
  exact endsNumber_cons digit mark

theorem startsNumber_digits {ds : List Char} (digits : ∀ c ∈ ds, c.isDigit) (some : ds ≠ []) :
    startsNumber (ds ++ f) := by
  cases ds with
  | nil => exact absurd rfl some
  | cons c cs => simp [startsNumber, digits c List.mem_cons_self]

/-- A number is scanned as far as it extends. -/
theorem ofBlock_number {c : Char} {cs : List Char} (h : startsNumber (c :: cs)) :
    ofBlock c cs =
      .ok (verbatim (numberExtent (c :: cs)).1 (numberExtent (c :: cs)).2 (c :: cs)) := by
  simp only [ofBlock, h, if_true]

theorem ofBlock_extent {c : Char} {cs : List Char} {kind : Token.Kind}
    (number : startsNumber (c :: cs ++ f))
    (extent : numberExtent (c :: cs ++ f) = (kind, (c :: cs).length)) :
    ofBlock c (cs ++ f) = .ok ⟨kind, c :: cs, (c :: cs).length⟩ := by
  have image : (c :: cs ++ f).take (c :: cs).length = c :: cs := List.take_left
  have lexed : ofBlock c (cs ++ f) = .ok (verbatim (numberExtent (c :: cs ++ f)).1
      (numberExtent (c :: cs ++ f)).2 (c :: cs ++ f)) := ofBlock_number number
  rw [lexed, extent, verbatim, image]

namespace EndsNumber

theorem not_digit (h : EndsNumber f) : f.head?.any Char.isDigit = false := by
  cases f with
  | nil => rfl
  | cons c f => exact (h c rfl).1

theorem exponentLength_eq (h : EndsNumber f) : exponentLength f = 0 := by
  cases f with
  | nil => rfl
  | cons c f =>
    have unmarked : ¬ (c = 'e' ∨ c = 'E') := not_or.mpr (h c rfl).2
    simp only [exponentLength.eq_def, if_neg unmarked]

theorem numberExtent_integer (h : EndsNumber f) (digits : ∀ c ∈ whole, c.isDigit)
    (pointless : f.head? ≠ some '.') : numberExtent (whole ++ f) = (.integer, whole.length) := by
  have behind (tail : List Char) : f ≠ '.' :: tail := by
    rintro rfl
    exact pointless rfl
  rw [numberExtent_whole digits h.not_digit behind, if_pos h.exponentLength_eq]

theorem numberExtent_float (h : EndsNumber f) (digits : ∀ c ∈ whole, c.isDigit)
    (places : IsDigits fraction) : numberExtent (whole ++ '.' :: fraction ++ f) =
      (.float, (whole ++ '.' :: fraction).length) := by
  have first : (fraction ++ f).head?.any Char.isDigit := by
    obtain ⟨d, ds, rfl⟩ := List.exists_cons_of_ne_nil places.some
    exact places.digits d List.mem_cons_self
  rw [List.append_assoc, List.cons_append, numberExtent_pointed digits places.digits h.not_digit,
    namesProperty_of_digit first, h.exponentLength_eq, List.length_append, List.length_cons]
  exact congrArg (Prod.mk _) (by omega)

end EndsNumber

end Lexeme

namespace Scanner

open Lexeme (EndsNumber numberExtent startsNumber)

variable {kind : Token.Kind} {f whole fraction : List Char}

/-- A number that begins with a digit is the next token as far as it extends. -/
theorem next_of_numberExtent {cs : List Char} (run : IsDigits whole) (begins : whole <+: cs)
    (extent : numberExtent (cs ++ f) = (kind, cs.length)) (p : Nat) :
    next ⟨.block, cs ++ f, p⟩ =
      (.ok ⟨kind, String.ofList cs, p⟩, ⟨Mode.block.after kind, f, p + cs.length⟩) := by
  obtain ⟨behind, rfl⟩ := begins
  have number : startsNumber (whole ++ behind ++ f) := by
    rw [List.append_assoc]
    exact Lexeme.startsNumber_digits run.digits run.some
  obtain ⟨d, ds, rfl⟩ := List.exists_cons_of_ne_nil run.some
  have nonblank := isBlank_of_isDigit (run.digits d List.mem_cons_self)
  rw [List.cons_append] at number extent ⊢
  have next := next_of_ofBlock nonblank (Lexeme.ofBlock_extent number extent) p
  rwa [← List.cons_append, List.drop_left] at next

theorem next_integer (run : IsDigits whole) (ends : EndsNumber f) (pointless : f.head? ≠ some '.')
    (p : Nat) : next ⟨.block, whole ++ f, p⟩ =
      (.ok ⟨.integer, String.ofList whole, p⟩, ⟨.block, f, p + whole.length⟩) :=
  next_of_numberExtent run List.prefix_rfl (ends.numberExtent_integer run.digits pointless) p

theorem next_float (run : IsDigits whole) (places : IsDigits fraction) (ends : EndsNumber f)
    (p : Nat) : next ⟨.block, whole ++ '.' :: fraction ++ f, p⟩ =
      (.ok ⟨.float, String.ofList (whole ++ '.' :: fraction), p⟩,
        ⟨.block, f, p + (whole ++ '.' :: fraction).length⟩) :=
  next_of_numberExtent run (List.prefix_append _ _) (ends.numberExtent_float run.digits places) p

end Scanner

end ElTemplate
