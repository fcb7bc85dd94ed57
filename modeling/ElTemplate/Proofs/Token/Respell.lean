import ElTemplate.Parser.Operator
import ElTemplate.Proofs.Number.Decimal
import ElTemplate.Proofs.Token.Numeral
import ElTemplate.Proofs.Token.Regular

/-!
# Scanning canonical spellings

Inside a block, a canonical spelling is scanned as one token if the text behind it begins with one
of the few characters that stand behind tokens in canonical text. An integer before a point is the
exception: what follows the point may make it a float.
-/

namespace ElTemplate

open Text

namespace Lexeme

/-- The characters that stand behind tokens in canonical text. -/
def breakers : List Char :=
  [' ', ')', ']', '}', ',', '.', '[', '(', ':']

/-- The text begins with a character that ends the token before it. -/
def Breaks (f : List Char) : Prop :=
  ∃ c rest, f = c :: rest ∧ c ∈ breakers

theorem breaker_spec {c : Char} (h : c ∈ breakers) :
    isIdentifierPart c = false ∧ c.isDigit = false ∧ c ≠ 'e' ∧ c ≠ 'E' ∧ c ≠ '+' ∧ c ≠ '-' := by
  simp only [breakers, List.mem_cons, List.not_mem_nil, or_false] at h
  rcases h with rfl | rfl | rfl | rfl | rfl | rfl | rfl | rfl | rfl <;> decide

variable {f : List Char}

theorem Breaks.endsNumber (h : Breaks f) : EndsNumber f := by
  obtain ⟨c, rest, rfl, member⟩ := h
  obtain ⟨-, digit, lower, upper, -, -⟩ := breaker_spec member
  exact endsNumber_cons digit ⟨lower, upper⟩

/-- Whether a word begins like an exponent, with a mark and a digit. -/
def isExponent : List Char → Bool
  | mark :: digit :: _ => (mark == 'e' || mark == 'E') && digit.isDigit
  | _ => false

/-- Whether a point belongs to the number before it depends on the word behind it alone. -/
theorem namesProperty_word {c : Char} {cs : List Char} (start : isIdentifierStart c)
    (part : ∀ d ∈ cs, isIdentifierPart d) (h : Breaks f) :
    namesProperty (c :: cs ++ f) = !isExponent (c :: cs) := by
  have head : (c :: cs ++ f).head?.any isIdentifierStart = true := start
  rw [namesProperty, head, Bool.true_and]
  by_cases mark : c = 'e' ∨ c = 'E'
  · have marked : (c == 'e' || c == 'E') = true := by simpa using mark
    cases cs with
    | nil =>
      obtain ⟨b, rest, rfl, member⟩ := h
      obtain ⟨-, digit, -, -, plus, minus⟩ := breaker_spec member
      simp [exponentLength, mark, plus, minus, Digits.count, digit, isExponent]
    | cons d ds =>
      have signless : ¬ (d = '+' ∨ d = '-') := by
        rintro (rfl | rfl) <;>
          exact absurd (part _ (List.mem_cons_self ..)) (by decide)
      by_cases digit : d.isDigit
      · have positive : 0 < Digits.count (d :: (ds ++ f)) := by simp [Digits.count, digit]
        simp only [List.cons_append, exponentLength, mark, if_true, signless, if_false,
          isExponent, marked, digit, Nat.ne_of_gt positive]
        simp
      · have none : Digits.count (d :: (ds ++ f)) = 0 := by simp [Digits.count, digit]
        simp [exponentLength, mark, signless, none, isExponent, digit]
  · have unmarked : (c == 'e' || c == 'E') = false := by simpa using mark
    have plain : isExponent (c :: cs) = false := by
      cases cs <;> simp [isExponent, unmarked]
    simp [exponentLength, mark, plain]

section Numbers

variable {ds : List Char} (digits : ∀ c ∈ ds, c.isDigit)

include digits

theorem numberExtent_of_integer (h : Breaks f)
    (property : ∀ tail, f = '.' :: tail → namesProperty tail) :
    numberExtent (ds ++ f) = (.integer, ds.length) := by
  simp only [numberExtent, Digits.count_append digits h.endsNumber.not_digit, List.drop_left]
  split
  · next tail => rw [if_pos (property _ rfl)]
  · rw [h.endsNumber.exponentLength_eq]
    rfl

/-- A point that names no property makes the digits before it a float. -/
theorem numberExtent_of_exponent {tail : List Char} (property : namesProperty tail = false) :
    (numberExtent (ds ++ '.' :: tail)).1 = .float := by
  have ends : (('.' :: tail).head?.any Char.isDigit) = false := rfl
  simp only [numberExtent, Digits.count_append digits ends, List.drop_left, property,
    Bool.false_eq_true, if_false]

end Numbers

/-- An identifier cannot begin a number, an operator or a string. -/
theorem start_spec {c : Char} (start : isIdentifierStart c) :
    c.isDigit = false ∧ (∀ operator ∈ operators, operator.1.head? ≠ some c) ∧ c ≠ '.' ∧
      c ≠ '&' ∧ c ≠ '|' ∧ c ≠ '=' ∧ c ≠ '"' ∧ c ≠ '\'' := by
  have digit : c.isDigit = false := by
    cases h : c.isDigit with
    | false => rfl
    | true =>
      rw [isIdentifierStart_of_isDigit h] at start
      cases start
  have apart : ∀ d, isIdentifierStart d = false → c ≠ d := by
    rintro d other rfl
    rw [start] at other
    cases other
  refine ⟨digit, ?_, apart _ (by decide), apart _ (by decide), apart _ (by decide),
    apart _ (by decide), apart _ (by decide), apart _ (by decide)⟩
  intro operator member head
  have others : operators.all fun operator => operator.1.head?.any (!isIdentifierStart ·) := by
    decide
  have other := List.all_eq_true.mp others operator member
  rw [head, Option.any_some, start] at other
  cases other

theorem operator?_eq_none {c : Char} {cs : List Char}
    (h : ∀ operator ∈ operators, operator.1.head? ≠ some c) : operator? (c :: cs) = none := by
  rw [operator?, List.find?_eq_none]
  intro operator member starts
  have head := h operator member
  obtain ⟨spelling, kind⟩ := operator
  cases spelling with
  | nil => exact absurd member (by cases kind <;> decide)
  | cons d ds =>
    simp only [List.isPrefixOf_cons_cons, Bool.and_eq_true, beq_iff_eq] at starts
    exact head (congrArg some starts.1)

/-- What begins with the first character of an identifier is scanned as a word. -/
theorem ofBlock_start {c : Char} (start : isIdentifierStart c) (rest : List Char) :
    ofBlock c rest = .ok ⟨.ofWord (String.ofList (c :: rest.takeWhile isIdentifierPart)),
      c :: rest.takeWhile isIdentifierPart, (c :: rest.takeWhile isIdentifierPart).length⟩ := by
  obtain ⟨digit, operators, point, ampersand, bar, equals, double, single⟩ := start_spec start
  have number : startsNumber (c :: rest) = false := by
    simp [startsNumber, digit, point]
  simp only [ofBlock, number, operator?_eq_none operators, ampersand, bar, equals, double, single,
    start]
  simp

/-- A word is scanned up to where no identifier goes on. -/
theorem ofBlock_word {c : Char} {cs : List Char} (start : isIdentifierStart c)
    (part : ∀ d ∈ cs, isIdentifierPart d) (h : Breaks f) :
    ofBlock c (cs ++ f) =
      .ok ⟨.ofWord (String.ofList (c :: cs)), c :: cs, (c :: cs).length⟩ := by
  obtain ⟨b, rest, rfl, member⟩ := h
  have word : (cs ++ b :: rest).takeWhile isIdentifierPart = cs := by
    have other : ¬ isIdentifierPart b := by simp [(breaker_spec member).1]
    rw [List.takeWhile_append_of_pos part, List.takeWhile_cons_of_neg other, List.append_nil]
  rw [ofBlock_start start, word]

/-- Behind a quote the scanner goes on with the content of a string. -/
theorem ofBlock_of_quote {quote : Char} (hquote : quote = '"' ∨ quote = '\'') (cs : List Char) :
    ofBlock quote cs = stringRest quote (quote :: cs) [] 1 cs := by
  have number : startsNumber (quote :: cs) = false := by
    rcases hquote with rfl | rfl <;> rfl
  have none : operator? (quote :: cs) = none :=
    operator?_eq_none (by rcases hquote with rfl | rfl <;> decide)
  have complete : ¬ (quote = '&' ∨ quote = '|' ∨ quote = '=') := by
    rcases hquote with rfl | rfl <;> decide
  rw [ofBlock, number, none]
  simp only [Bool.false_eq_true, if_false, if_neg complete, if_pos hquote]

theorem quote_ne_backslash {quote : Char} (hquote : quote = '"' ∨ quote = '\'') :
    quote ≠ '\\' := by
  rcases hquote with rfl | rfl <;> decide

/-- A string is scanned as its content, whatever stands behind it. -/
theorem ofBlock_quoted {quote : Char} {body content : List Char}
    (hquote : quote = '"' ∨ quote = '\'') (h : Lexical.Quoted quote body content) :
    ofBlock quote (body ++ quote :: f) = .ok ⟨.string, content, body.length + 2⟩ := by
  rw [ofBlock_of_quote hquote, stringRest_quoted (quote_ne_backslash hquote) h, List.reverse_nil,
    List.nil_append]
  rw [Nat.add_assoc, Nat.add_comm 1, Nat.add_assoc]

theorem quoted_escapeQuoted (cs : List Char) :
    Lexical.Quoted '\'' (Literal.escapeQuoted cs) cs := by
  induction cs with
  | nil => exact .nil
  | cons c cs ih =>
    rw [Literal.escapeQuoted]
    split
    · next special => exact .escaped (by rcases special with rfl | rfl <;> decide) ih
    · next plain => exact .plain (fun h => plain (.inl h)) (fun h => plain (.inr h)) ih

theorem ofBlock_quote (cs : List Char) :
    ofBlock '\'' (Literal.escapeQuoted cs ++ '\'' :: f) =
      .ok ⟨.string, cs, (Literal.quote cs).length⟩ := by
  rw [ofBlock_quoted (.inr rfl) (quoted_escapeQuoted cs), Literal.quote, List.length_cons,
    List.length_append]
  rfl

end Lexeme

end ElTemplate
