import ElTemplate.Proofs.Grammar.Names
import ElTemplate.Proofs.Parser.Equations
import ElTemplate.Proofs.Token.Tape

/-!
# Parsing from a place on a tape

The state of a parser on a tape is given by the tokens ahead, the end of the tape, the names met so
far and the two counts. The building blocks of parsers are equations between such states. Where the
tape may end with an error, success says which tokens were there.
-/

namespace ElTemplate

open Grammar

/-- The state in front of some tokens. -/
def ParserState.before (ts : List Token) (final : Except ScanError Nat) (names : Names)
    (nesting depth : Nat) : ParserState Tape :=
  ⟨⟨ts, final⟩, names.identifiers, names.functions, nesting, depth⟩

namespace Tape

@[simp] theorem kind_current (ts : List Token) (final : Except ScanError Nat) :
    (TokenSource.current (⟨ts, final⟩ : Tape)).kind = kindOf ts := by
  cases ts <;> rfl

theorem exists_cons_of_kindOf {ts : List Token} (h : kindOf ts ≠ .eof) :
    ∃ t rest, ts = t :: rest := by
  cases ts with
  | nil => exact absurd rfl h
  | cons t rest => exact ⟨t, rest, rfl⟩

/-- A kind that is known on a tape is that of the token there, or the end. -/
theorem kindAt_eq_ok {tape : Tape} {index : Nat} {k : Token.Kind} (h : tape.kindAt index = .ok k) :
    k = kindOf (tape.tokens.drop index) := by
  simp only [kindAt] at h
  cases ahead : tape.tokens.drop index with
  | nil =>
    cases ending : tape.final with
    | ok position =>
      rw [ahead, ending] at h
      cases h
      rfl
    | error e =>
      rw [ahead, ending] at h
      cases h
  | cons t rest =>
    rw [ahead] at h
    cases h
    rfl

@[simp] theorem kindAt_of_ok (ts : List Token) (stop index : Nat) :
    kindAt ⟨ts, .ok stop⟩ index = .ok (kindOf (ts.drop index)) := by
  simp only [kindAt]
  cases ts.drop index <;> rfl

end Tape

namespace Parser

open ParserState (before)

variable {α : Type} {ts rest : List Token} {t : Token} {final : Except ScanError Nat} {stop : Nat}
  {names : Names} {nesting depth : Nat} {s' : ParserState Tape}

@[simp] theorem kind_before (f : Token.Kind → Parser Tape α) :
    (kind >>= f) (before ts final names nesting depth) =
      f (kindOf ts) (before ts final names nesting depth) := by
  rw [kind_bind]
  simp only [before, Tape.kind_current]

@[simp] theorem advance_before :
    advance (before (t :: ts) (.ok stop) names nesting depth) =
      .ok (t, before ts (.ok stop) names nesting depth) := by
  have moved : TokenSource.advance (⟨t :: ts, .ok stop⟩ : Tape) = .ok ⟨ts, .ok stop⟩ :=
    Tape.advance_cons
  simp only [advance, before, moved]
  rfl

/-- Moving on from a token leaves the tokens behind it. -/
theorem advance_eq_ok (h : advance (before ts final names nesting depth) = .ok (t, s'))
    (more : kindOf ts ≠ .eof) :
    ∃ rest, ts = t :: rest ∧ s' = before rest final names nesting depth := by
  obtain ⟨u, rest, rfl⟩ := Tape.exists_cons_of_kindOf more
  simp only [advance, before] at h
  split at h
  · next source moved =>
    cases h
    rw [Tape.advance_eq_ok moved]
    exact ⟨rest, rfl, rfl⟩
  · cases h

/-- Moving on from a kind that was looked at leaves the tokens behind it. -/
theorem advance_of_kindOf {k : Token.Kind}
    (h : advance (before ts final names nesting depth) = .ok (t, s')) (same : kindOf ts = k)
    (proper : k ≠ .eof) :
    ∃ rest, ts = t :: rest ∧ s' = before rest final names nesting depth := by
  apply advance_eq_ok h
  rw [same]
  exact proper

theorem expect_before {k : Token.Kind} (h : t.kind = k) :
    expect k (before (t :: ts) (.ok stop) names nesting depth) =
      .ok (t, before ts (.ok stop) names nesting depth) := by
  simp only [expect, kind_before, kindOf_cons, h, if_true, advance_before]

/-- Only a token of the expected kind is accepted. -/
theorem expect_eq_ok {k : Token.Kind}
    (h : expect k (before ts final names nesting depth) = .ok (t, s')) (proper : k ≠ .eof) :
    ∃ rest, ts = t :: rest ∧ t.kind = k ∧ s' = before rest final names nesting depth := by
  simp only [expect, kind_before] at h
  split at h
  · next same =>
    obtain ⟨rest, rfl, rfl⟩ := advance_eq_ok h (same ▸ proper)
    exact ⟨rest, rfl, same, rfl⟩
  · cases h

/-- Asking for tokens ahead changes nothing. -/
theorem ahead_eq_ok {index : Nat} {k : Token.Kind}
    (h : ahead index (before ts final names nesting depth) = .ok (k, s')) :
    k = kindOf (ts.drop (index + 1)) ∧ s' = before ts final names nesting depth := by
  simp only [ahead, before] at h
  split at h
  · next k' source known =>
    cases h
    change (Tape.kindAt _ (index + 1)).map _ = _ at known
    cases at' : Tape.kindAt ⟨ts, final⟩ (index + 1) with
    | error e =>
      rw [at'] at known
      cases known
    | ok k =>
      rw [at'] at known
      cases known
      exact ⟨Tape.kindAt_eq_ok at', rfl⟩
  · cases h

@[simp] theorem ahead_before (index : Nat) :
    ahead index (before ts (.ok stop) names nesting depth) =
      .ok (kindOf (ts.drop (index + 1)), before ts (.ok stop) names nesting depth) := by
  have known : TokenSource.ahead index (⟨ts, .ok stop⟩ : Tape) =
      .ok (kindOf (ts.drop (index + 1)), ⟨ts, .ok stop⟩) := by
    change (Tape.kindAt _ (index + 1)).map _ = _
    rw [Tape.kindAt_of_ok]
    rfl
  simp only [ahead, before, known]

/-- The lookahead decides whether an identifier qualifies a call. -/
theorem atQualifiedCall_before :
    atQualifiedCall (before ts (.ok stop) names nesting depth) =
      .ok (decide (QualifiesCall ts), before ts (.ok stop) names nesting depth) := by
  by_cases colon : kindOf ts = .colon
  · rw [atQualifiedCall, kind_before, if_pos colon, bind_of_ok (ahead_before 0)]
    by_cases name : kindOf (ts.drop 1) = .identifier
    · have last : QualifiesCall ts ↔ kindOf (ts.drop 2) = .leftParen :=
        ⟨fun h => h.2.2, fun h => ⟨colon, name, h⟩⟩
      rw [if_pos name, bind_of_ok (ahead_before 1), pure_apply]
      simp only [last]
    · rw [if_neg name, pure_apply, decide_eq_false fun h : QualifiesCall ts => name h.2.1]
  · rw [atQualifiedCall, kind_before, if_neg colon, pure_apply,
      decide_eq_false fun h : QualifiesCall ts => colon h.1]

theorem atQualifiedCall_eq_ok {qualifies : Bool}
    (h : atQualifiedCall (before ts final names nesting depth) = .ok (qualifies, s')) :
    qualifies = decide (QualifiesCall ts) ∧ s' = before ts final names nesting depth := by
  rw [atQualifiedCall, kind_before] at h
  split at h
  · next colon =>
    obtain ⟨k, s₁, first, h⟩ := bind_eq_ok h
    obtain ⟨rfl, rfl⟩ := ahead_eq_ok first
    split at h
    · next name =>
      obtain ⟨k, s₂, second, h⟩ := bind_eq_ok h
      obtain ⟨rfl, rfl⟩ := ahead_eq_ok second
      have last : QualifiesCall ts ↔ kindOf (ts.drop 2) = .leftParen :=
        ⟨fun h => h.2.2, fun h => ⟨colon, name, h⟩⟩
      cases h
      exact ⟨by simp only [last], rfl⟩
    · next name =>
      cases h
      exact ⟨(decide_eq_false fun h : QualifiesCall ts => name h.2.1).symm, rfl⟩
  · next colon =>
    cases h
    exact ⟨(decide_eq_false fun h : QualifiesCall ts => colon h.1).symm, rfl⟩

theorem deepen_before :
    deepen (before ts final names nesting depth) =
      if depth < maxDepth then .ok ((), before ts final names nesting (depth + 1))
      else refuse .depthLimit (before ts final names nesting depth) := rfl

@[simp] theorem release_before (levels : Nat) :
    release levels (before ts final names nesting (depth + levels)) =
      .ok ((), before ts final names nesting depth) := by
  simp only [release, before, Nat.add_sub_cancel]

theorem identifier_before (features : FeatureSet) (name : String) (index : Nat) :
    identifier name (before ts final names nesting depth) =
      .ok (((Node.identifier name index).register features names).1,
        before ts final ((Node.identifier name index).register features names).2
          nesting depth) := rfl

/-- A call gets its index after its arguments. -/
theorem call_before (features : FeatureSet) (qualifier : Option String) (name : String)
    (index : Nat) (args : List Node) :
    call features qualifier name (Node.registerAll features names args).1
        (before ts final (Node.registerAll features names args).2 nesting depth) =
      .ok (((Node.call qualifier name index args).register features names).1,
        before ts final ((Node.call qualifier name index args).register features names).2
          nesting depth) := rfl

/-- What is neither named nor in parentheses can only be a literal. -/
theorem primary_of_ne {features : FeatureSet} {size : Nat} {expression : Parser Tape Node}
    (name : kindOf ts ≠ .identifier) (paren : kindOf ts ≠ .leftParen) :
    primary features size expression (before ts final names nesting depth) =
      literal (before ts final names nesting depth) := by
  rw [primary, kind_before]
  generalize kindOf ts = k at name paren
  cases k <;> first | contradiction | rfl

/-- Without a point or a bracket ahead there is no access step. -/
theorem accessKey?_of_ne {expression : Parser Tape Node} (dot : kindOf ts ≠ .dot)
    (bracket : kindOf ts ≠ .leftBracket) :
    accessKey? expression (before ts final names nesting depth) =
      .ok (none, before ts final names nesting depth) := by
  rw [accessKey?, kind_before]
  generalize kindOf ts = k at dot bracket
  cases k <;> first | contradiction | rfl

/-- A parser with one level of nesting less, if there is one left. -/
def deeper (p : Nat → Parser Tape α) : Nat → Parser Tape α
  | 0 => refuse .nestingLimit
  | levels + 1 => nested (p levels)

variable (features : FeatureSet) (size : Nat)

theorem level_expression (levels : Nat) :
    (level features size levels).expression =
      deeper (fun levels => ternary (level features size levels).operand
        (level features size levels).expression) levels := by
  cases levels <;> rfl

theorem level_operand (levels : Nat) :
    (level features size levels).operand =
      unary (deeper (fun levels => (level features size levels).operand) levels)
        (value features size (level features size levels).expression) := by
  cases levels <;> rfl

end Parser

end ElTemplate
