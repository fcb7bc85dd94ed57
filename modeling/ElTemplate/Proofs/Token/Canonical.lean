import ElTemplate.Proofs.Token.Literal
import ElTemplate.Proofs.Token.Respell
import ElTemplate.Proofs.Token.Scans

/-!
# Canonical tokens

Operators, brackets, words and literals are scanned again from their canonical spelling. Two
spellings are scanned as something else: an infinite number as the identifier `Infinity`, and an
integer before a point that names no property as a float.
-/

namespace ElTemplate

open Text

namespace Literal

/-- Whether the literal stays apart from the text behind it: a whole number takes a point that names
no property along. -/
def Apart (value : Literal) (f : List Char) : Prop :=
  value.isWhole → ∀ tail, f = '.' :: tail → Lexeme.namesProperty tail

theorem apart_of_ne {value : Literal} {f : List Char} (h : f.head? ≠ some '.') :
    value.Apart f := by
  rintro - tail rfl
  exact absurd rfl h

end Literal

namespace Token

/-- The kinds of tokens whose images differ. -/
def Kind.varied : List Kind := [.integer, .float, .string, .identifier, .text]

/-- Tokens of a kind that says everything are alike. -/
theorem Alike.of_kind {t u : Token} (same : t.kind = u.kind) (plain : t.kind ∉ Kind.varied) :
    t.Alike u := by
  obtain ⟨k, image, position⟩ := t
  obtain ⟨k', image', position'⟩ := u
  cases same
  refine ⟨rfl, ?_, ?_⟩
  · rintro (rfl | rfl) <;> simp [Kind.varied] at plain
  · cases k <;> first | rfl | simp [Kind.varied] at plain

theorem Alike.of_literal {t u : Token} (same : t.kind = u.kind)
    (identifier : t.kind ≠ .identifier) (text : t.kind ≠ .text)
    (literal : Literal.ofToken? t = Literal.ofToken? u) : t.Alike u := by
  refine ⟨same, ?_, literal⟩
  rintro (named | raw)
  · exact absurd named identifier
  · exact absurd raw text

end Token

namespace Scanner

variable {t : Token} {us : List Token} {c : Char} {cs f : List Char} {l : Lexeme} {mode : Mode}

namespace Scans

theorem token (nonblank : isBlank c = false) (lexed : Lexeme.ofBlock c (cs ++ f) = .ok l)
    (length : l.length = (c :: cs).length)
    (alike : ∀ p, t.Alike ⟨l.kind, String.ofList l.image, p⟩) :
    Scans True .block (c :: cs) [t] (Mode.block.after t.kind) f := by
  refine ⟨?_, fun h => absurd trivial h⟩
  intro _ p
  have next := next_of_ofBlock nonblank lexed p
  have behind : (c :: (cs ++ f)).drop l.length = f := by
    rw [length, ← List.cons_append, List.drop_left]
  rw [behind] at next
  refine ⟨_, p + l.length, ?_, List.forall_mem_singleton.mpr (Lexeme.ofBlock_ok lexed).1,
    .cons (alike p) .nil⟩
  rw [(alike p).kind]
  exact .cons next .nil

/-- A token that becomes one of another kind is never scanned right. -/
theorem wrong (nonblank : isBlank c = false) (lexed : Lexeme.ofBlock c (cs ++ f) = .ok l)
    (other : l.kind ≠ t.kind) : Scans False .block (c :: cs) [t] mode f := by
  refine ⟨False.elim, ?_⟩
  intro _ p
  rw [List.cons_append, tape_of_token (next_of_ofBlock nonblank lexed p)
    (Lexeme.ofBlock_ok lexed).1]
  intro starts
  obtain ⟨kind, -⟩ := List.cons_prefix_cons.mp starts
  exact other kind.symm

/-- The characters that are tokens whatever stands behind them. -/
def marks : List (Char × Token.Kind) :=
  [('}', .endEval), ('?', .question), (':', .colon), ('[', .leftBracket), (']', .rightBracket),
   ('(', .leftParen), (')', .rightParen), (',', .comma)]

theorem mark (h : (c, t.kind) ∈ marks) :
    Scans True .block [c] [t] (Mode.block.after t.kind) f := by
  have spec : isBlank c = false ∧ Lexeme.ofBlock c f = .ok ⟨t.kind, [c], 1⟩ ∧
      t.kind ∉ Token.Kind.varied := by
    generalize t.kind = k at h
    simp only [marks, List.mem_cons, Prod.mk.injEq, List.not_mem_nil, or_false] at h
    rcases h with h | h | h | h | h | h | h | h <;> obtain ⟨rfl, rfl⟩ := h <;>
      exact ⟨by decide, rfl, by decide⟩
  obtain ⟨nonblank, lexed, plain⟩ := spec
  exact token nonblank lexed rfl fun p => .of_kind rfl plain

theorem sign {k : Token.Kind} (hkind : t.kind = k) (h : (c, k) ∈ marks)
    (stays : Mode.block.after k = .block) : Scans True .block [c] [t] .block f := by
  have scans := mark (t := t) (f := f) (hkind ▸ h)
  rwa [hkind, stays] at scans

/-- A point is a token of its own unless a digit stands behind it. -/
theorem point (hdot : t.kind = .dot) (h : f.head?.any Char.isDigit = false) :
    Scans True .block ['.'] [t] .block f := by
  have number : Lexeme.startsNumber ('.' :: f) = false := by
    simp [Lexeme.startsNumber, h]
  have lexed : Lexeme.ofBlock '.' f = .ok ⟨.dot, ['.'], 1⟩ := by
    rw [Lexeme.ofBlock, number]
    rfl
  have nonblank : isBlank '.' = false := by decide
  have plain : t.kind ∉ Token.Kind.varied := by
    rw [hdot]
    decide
  have scans : Scans True .block ['.'] [t] (Mode.block.after t.kind) f :=
    token nonblank lexed rfl fun p => .of_kind hdot plain
  rwa [hdot] at scans

/-- What the spelling of an operator has to be for the operator to be scanned before a space. -/
def IsOperator (spelling : String) (kind : Token.Kind) : Prop :=
  ∃ c cs, spelling.toList = c :: cs ∧ isBlank c = false ∧
    (∀ f, Lexeme.ofBlock c (cs ++ ' ' :: f) = .ok ⟨kind, c :: cs, (c :: cs).length⟩) ∧
    kind ∉ Token.Kind.varied ∧
    Mode.block.after kind = .block

theorem isOperator_binary (op : BinaryOp) : IsOperator op.spelling op.kind := by
  cases op <;> exact ⟨_, _, rfl, by decide, fun _ => rfl, by decide, rfl⟩

theorem isOperator_unary (op : UnaryOp) : IsOperator op.spelling op.kind := by
  cases op <;> exact ⟨_, _, rfl, by decide, fun _ => rfl, by decide, rfl⟩

theorem operator {spelling : String} (h : IsOperator spelling t.kind) :
    Scans True .block spelling.toList [t] .block (' ' :: f) := by
  obtain ⟨c, cs, spelled, nonblank, lexed, plain, stays⟩ := h
  have scans := token nonblank (lexed f) rfl fun p => .of_kind rfl plain
  rwa [stays, ← spelled] at scans

/-- A word is scanned again before anything that no identifier goes on with. -/
theorem word (start : isIdentifierStart c) (part : ∀ d ∈ cs, isIdentifierPart d)
    (breaks : Lexeme.Breaks f)
    (alike : ∀ p, t.Alike ⟨.ofWord (String.ofList (c :: cs)), String.ofList (c :: cs), p⟩)
    (stays : Mode.block.after t.kind = .block) :
    Scans True .block (c :: cs) [t] .block f := by
  have nonblank : isBlank c = false := isBlank_of_isIdentifierStart start
  have scans := token nonblank (Lexeme.ofBlock_word start part breaks) rfl alike
  rwa [stays] at scans

theorem identifier (hname : t.kind = .identifier) (regular : Token.Regular t.kind t.image.toList)
    (breaks : Lexeme.Breaks f) : Scans True .block t.image.toList [t] .block f := by
  rw [hname] at regular
  obtain ⟨c, cs, image, start, part, named⟩ := regular
  rw [image] at named ⊢
  refine word start part breaks (fun p => ⟨hname.trans named.symm, fun _ => ?_, ?_⟩) ?_
  · rw [← image, String.ofList_toList]
  · simp only [Literal.ofToken?, hname, named]
  · rw [hname]
    rfl

/-- A run of digits is scanned again as an integer, unless it takes a point along. -/
theorem digits (hkind : t.kind = .integer) (some : cs ≠ []) (digits : ∀ d ∈ cs, d.isDigit)
    (value : Literal.ofDigits t.image.toList = Literal.ofDigits cs) (breaks : Lexeme.Breaks f) :
    Scans (∀ tail, f = '.' :: tail → Lexeme.namesProperty tail) .block cs [t] .block f := by
  have number := Lexeme.startsNumber_digits (f := f) digits some
  cases cs with
  | nil => exact absurd rfl some
  | cons c cs =>
    have nonblank : isBlank c = false := isBlank_of_isDigit (digits c (List.mem_cons_self ..))
    by_cases property : ∀ tail, f = '.' :: tail → Lexeme.namesProperty tail
    · have lexed := Lexeme.ofBlock_extent number
        (Lexeme.numberExtent_of_integer digits breaks property)
      have scans := token (t := t) nonblank lexed rfl fun p => .of_literal hkind
        (by rw [hkind]; decide) (by rw [hkind]; decide)
        (by simp only [Literal.ofToken?, hkind, value, String.toList_ofList])
      rw [hkind] at scans
      exact scans.congr (iff_true_intro property)
    · have float : (Lexeme.numberExtent (c :: cs ++ f)).1 ≠ t.kind := by
        simp only [not_forall] at property
        obtain ⟨tail, rfl, other⟩ := property
        rw [Lexeme.numberExtent_of_exponent digits (Bool.eq_false_iff.mpr other), hkind]
        decide
      have scans : Scans False .block (c :: cs) [t] .block f :=
        wrong nonblank (Lexeme.ofBlock_number number) float
      exact scans.congr (iff_false_intro property)

/-- An infinite number is scanned as an identifier. -/
theorem infinity (hkind : t.kind = .float) (breaks : Lexeme.Breaks f) :
    Scans False .block "Infinity".toList [t] .block f := by
  have lexed : Lexeme.ofBlock 'I' ("nfinity".toList ++ f) =
      .ok ⟨.identifier, "Infinity".toList, 8⟩ :=
    Lexeme.ofBlock_word (by decide) (List.all_eq_true.mp (by decide)) breaks
  exact wrong (by decide) lexed (by rw [hkind]; decide)

/-- A float is scanned again from its decimal spelling, but has none if it is infinite. -/
theorem float {x : Binary64} (hkind : t.kind = .float)
    (value : Binary64.read? t.image.toList = some x)
    (regular : Token.Regular t.kind t.image.toList) (breaks : Lexeme.Breaks f) :
    Scans (x.isInfinite = false) .block x.spell.toList [t] .block f := by
  have plain : t.kind ≠ .identifier ∧ t.kind ≠ .text := by
    rw [hkind]
    decide
  rw [hkind] at regular
  obtain ⟨unsigned, finite | infinite⟩ := Binary64.unsigned_of_read regular.1 value
  · have bounded : x.isInfinite = false := by
      have below : x.magnitude < Binary64.infinityPattern := by
        simpa [Binary64.isFinite] using finite
      simp [Binary64.isInfinite, Nat.ne_of_lt below]
    obtain ⟨whole, fraction, spelled, decimal⟩ := Binary64.spell_spec unsigned finite
    have number := Lexeme.startsNumber_digits (f := '.' :: fraction ++ f) decimal.whole_digits
      decimal.whole_ne_nil
    have extent := breaks.endsNumber.numberExtent_float decimal.whole_digits
      ⟨decimal.fraction_ne_nil, decimal.fraction_digits⟩
    have again := decimal.read?
    have digits := decimal.whole_digits
    rw [spelled, String.toList_ofList]
    cases whole with
    | nil => exact absurd rfl decimal.whole_ne_nil
    | cons c cs =>
      rw [← List.append_assoc] at number
      rw [List.cons_append] at number extent again ⊢
      have lexed := Lexeme.ofBlock_extent number extent
      have scans := token (t := t) (isBlank_of_isDigit (digits c (List.mem_cons_self ..))) lexed rfl
        fun p => .of_literal hkind plain.1 plain.2
          (by simp only [Literal.ofToken?, hkind, value, String.toList_ofList, again])
      rw [hkind] at scans
      exact scans.congr (iff_true_intro bounded)
  · rw [Binary64.spell_of_isInfinite unsigned infinite]
    exact (infinity hkind breaks).congr (iff_false_intro (by simp [infinite]))

/-- The string, in quotes, is scanned again whatever stands behind it. -/
theorem string (hkind : t.kind = .string) :
    Scans True .block (Literal.quote t.image.toList) [t] .block f := by
  have lexed : Lexeme.ofBlock '\'' (Literal.escapeQuoted t.image.toList ++ ['\''] ++ f) =
      .ok ⟨.string, t.image.toList, (Literal.quote t.image.toList).length⟩ := by
    rw [List.append_assoc]
    exact Lexeme.ofBlock_quote t.image.toList
  have scans := token (t := t) (by decide) lexed rfl fun p => .of_literal hkind
    (by rw [hkind]; decide) (by rw [hkind]; decide)
    (by simp only [Literal.ofToken?, hkind, String.ofList_toList])
  rwa [hkind] at scans

/-- What a word has to be to be scanned again as a reserved word. -/
def IsReserved (spelling : String) (kind : Token.Kind) : Prop :=
  ∃ c cs, spelling.toList = c :: cs ∧ isIdentifierStart c ∧ cs.all isIdentifierPart ∧
    Token.Kind.ofWord (String.ofList (c :: cs)) = kind ∧
    kind ∉ Token.Kind.varied ∧
    Mode.block.after kind = .block

theorem reserved {spelling : String} (h : IsReserved spelling t.kind) (breaks : Lexeme.Breaks f) :
    Scans True .block spelling.toList [t] .block f := by
  obtain ⟨c, cs, spelled, start, part, named, plain, stays⟩ := h
  rw [spelled]
  exact word start (List.all_eq_true.mp part) breaks (fun p => .of_kind named.symm plain) stays

/-- The literal of a reserved word is scanned again wherever the word ends. -/
theorem reservedLiteral {value : Literal} {k : Token.Kind} (h : IsReserved value.spelling k)
    (hkind : t.kind = k) (breaks : Lexeme.Breaks f) (finite : value.isInfinite = false)
    (other : value.isWhole = false) :
    Scans (value.isInfinite = false ∧ value.Apart f) .block value.spelling.toList [t] .block f := by
  subst hkind
  have apart : value.Apart f := fun whole => by
    rw [other] at whole
    cases whole
  exact (reserved h breaks).congr (iff_true_intro ⟨finite, apart⟩)

/-- A literal is scanned again from its spelling if it is not infinite and stays apart from what
stands behind it. -/
theorem literal {value : Literal} (hvalue : Literal.ofToken? t = some (.ok value))
    (regular : Token.Regular t.kind t.image.toList) (breaks : Lexeme.Breaks f) :
    Scans (value.isInfinite = false ∧ value.Apart f) .block value.spelling.toList [t] .block f := by
  obtain ⟨k, image, position⟩ := t
  rw [Literal.ofToken?.eq_def] at hvalue
  cases k with
  | integer =>
    cases hvalue
    obtain ⟨ds, spelled, some, run, same⟩ := Literal.spelling_ofDigits regular.2
    have scans := digits (t := ⟨.integer, image, position⟩) rfl some run same.symm breaks
    have whole := Literal.isWhole_ofDigits image.toList
    rw [spelled, String.toList_ofList]
    apply scans.congr
    rw [Literal.Apart, Literal.isInfinite_of_isWhole whole]
    simp only [true_and, whole, forall_const]
  | float =>
    simp only at hvalue
    split at hvalue
    · next x read =>
      cases hvalue
      have scans := float (t := ⟨.float, image, position⟩) rfl read regular breaks
      exact scans.congr (and_iff_left fun whole => Bool.noConfusion whole)
    · cases hvalue
  | string =>
    cases hvalue
    rw [Literal.spelling, String.toList_ofList]
    exact (string rfl).congr (iff_true_intro ⟨rfl, fun whole => Bool.noConfusion whole⟩)
  | trueWord =>
    cases hvalue
    exact reservedLiteral ⟨_, _, rfl, by decide, by decide, rfl, by decide, rfl⟩ rfl breaks rfl rfl
  | falseWord =>
    cases hvalue
    exact reservedLiteral ⟨_, _, rfl, by decide, by decide, rfl, by decide, rfl⟩ rfl breaks rfl rfl
  | nullWord =>
    cases hvalue
    exact reservedLiteral ⟨_, _, rfl, by decide, by decide, rfl, by decide, rfl⟩ rfl breaks rfl rfl
  | _ => cases hvalue

end Scans

end Scanner

end ElTemplate
