import ElTemplate.Proofs.Token.Number
import ElTemplate.Proofs.Token.Tape

/-!
# What tokens are made of

The image of a scanned identifier is a word that no other token takes, that of an integer is a run
of digits, and that of a float a decimal without a sign.
-/

namespace ElTemplate

open Text

namespace Token

/-- What a scanner can have given as the image of a token of this kind. -/
def Regular (kind : Token.Kind) (image : List Char) : Prop :=
  match kind with
  | .identifier =>
    ∃ c cs, image = c :: cs ∧ isIdentifierStart c ∧ (∀ d ∈ cs, isIdentifierPart d) ∧
      Kind.ofWord (String.ofList image) = .identifier
  | .integer => image ≠ [] ∧ ∀ c ∈ image, c.isDigit
  | .float => image.head? ≠ some '-' ∧ (Binary64.read? image).isSome
  | _ => True

theorem regular_of_ne {kind : Token.Kind} (identifier : kind ≠ .identifier)
    (integer : kind ≠ .integer) (float : kind ≠ .float) (image : List Char) :
    Regular kind image := by
  cases kind <;> first | contradiction | trivial

end Token

namespace Lexeme

open Token (Regular regular_of_ne)

theorem regular_ofBlock {c : Char} {rest : List Char} {l : Lexeme} (h : ofBlock c rest = .ok l) :
    Regular l.kind l.image := by
  obtain ⟨kind, image, length⟩ := l
  obtain ⟨slice, f, -, -, spells⟩ := spells_of_ofBlock h
  change Lexical.Spells slice kind image at spells
  cases spells with
  | operator listed =>
    obtain ⟨identifier, integer, float⟩ := (by decide : ∀ operator ∈ operators,
      operator.2 ≠ .identifier ∧ operator.2 ≠ .integer ∧ operator.2 ≠ .float) _ listed
    exact regular_of_ne identifier integer float _
  | @word c cs start part =>
    by_cases identifier : Token.Kind.ofWord (String.ofList (c :: cs)) = .identifier
    · simp only [identifier]
      exact ⟨c, cs, rfl, start, part, identifier⟩
    · exact regular_of_ne identifier (ofWord_ne (by decide) _) (ofWord_ne (by decide) _) _
  | integer run => exact ⟨run.some, run.digits⟩
  | float float => exact Binary64.read?_of_isFloat float
  | string => trivial

/-- A delimiter is a dollar or number sign and a brace. -/
theorem delimiter?_eq_some {cs : List Char} {kind : Token.Kind} (h : delimiter? cs = some kind) :
    (kind = .startDynamic ∧ ∃ rest, cs = '$' :: '{' :: rest) ∨
      (kind = .startDeferred ∧ ∃ rest, cs = '#' :: '{' :: rest) := by
  unfold delimiter? at h
  split at h
  · cases h
    exact .inl ⟨rfl, _, rfl⟩
  · cases h
    exact .inr ⟨rfl, _, rfl⟩
  · cases h

theorem regular_ofText (cs : List Char) : Regular (ofText cs).kind (ofText cs).image := by
  rw [ofText]
  split
  · next kind start =>
    rcases delimiter?_eq_some start with ⟨rfl, -⟩ | ⟨rfl, -⟩
    · trivial
    · trivial
  · trivial

end Lexeme

namespace Scanner

variable {s s' : Scanner} {t : Token}

theorem regular_next (h : s.next = (.ok t, s')) (kind : t.kind ≠ .eof) :
    Token.Regular t.kind t.image.toList := by
  obtain ⟨mode, rest, position⟩ := s
  cases mode with
  | text =>
    cases rest with
    | nil =>
      cases h
      exact absurd rfl kind
    | cons c cs =>
      cases h
      simpa only [String.toList_ofList] using Lexeme.regular_ofText (c :: cs)
  | block =>
    simp only [next] at h
    split at h
    · cases h
      exact absurd rfl kind
    · next c cs ahead =>
      split at h
      · next l lexeme =>
        cases h
        simpa only [accept, String.toList_ofList] using Lexeme.regular_ofBlock lexeme
      · cases h

/-- All tokens of a tape are regular. -/
theorem regular_of_mem_tape (s : Scanner) :
    ∀ t ∈ s.tape.tokens, Token.Regular t.kind t.image.toList := by
  induction s using tape.induct with
  | case1 s e s' next =>
    rw [tape_of_error next]
    exact List.forall_mem_nil _
  | case2 s t s' next kind =>
    rw [tape_of_eof next kind]
    exact List.forall_mem_nil _
  | case3 s t s' next kind ih =>
    rw [tape_of_token next kind]
    exact List.forall_mem_cons.mpr ⟨regular_next next kind, ih⟩

end Scanner

end ElTemplate
