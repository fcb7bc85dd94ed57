import ElTemplate.Parser.Template

/-!
# Running parsers on states

What the building blocks of parsers do to a state, as equations. A parser in sequence with others
either fails at once or goes on from the state it has reached.
-/

namespace ElTemplate.Parser

variable {σ α β : Type}

theorem bind_apply (p : Parser σ α) (f : α → Parser σ β) (s : ParserState σ) :
    (p >>= f) s = (p s).bind fun x => f x.1 x.2 := rfl

theorem pure_apply (a : α) (s : ParserState σ) : (pure a : Parser σ α) s = .ok (a, s) := rfl

theorem bind_of_ok {p : Parser σ α} {f : α → Parser σ β} {s s' : ParserState σ} {a : α}
    (h : p s = .ok (a, s')) : (p >>= f) s = f a s' := by
  rw [bind_apply, h]
  rfl

theorem bind_of_error {p : Parser σ α} {f : α → Parser σ β} {s : ParserState σ}
    {e : CompileError} (h : p s = .error e) : (p >>= f) s = .error e := by
  rw [bind_apply, h]
  rfl

/-- A sequence succeeds only through a success of its first part. -/
theorem bind_eq_ok {p : Parser σ α} {f : α → Parser σ β} {s s'' : ParserState σ} {b : β}
    (h : (p >>= f) s = .ok (b, s'')) : ∃ a s', p s = .ok (a, s') ∧ f a s' = .ok (b, s'') := by
  cases first : p s with
  | error e => cases (bind_of_error first).symm.trans h
  | ok x => exact ⟨x.1, x.2, rfl, (bind_of_ok first).symm.trans h⟩

/-- A sequence fails where one of its parts fails. -/
theorem bind_eq_error {p : Parser σ α} {f : α → Parser σ β} {s : ParserState σ} {e : CompileError}
    (h : (p >>= f) s = .error e) :
    p s = .error e ∨ ∃ a s', p s = .ok (a, s') ∧ f a s' = .error e := by
  cases first : p s with
  | error e' =>
    cases (bind_of_error first).symm.trans h
    exact .inl rfl
  | ok x => exact .inr ⟨x.1, x.2, rfl, (bind_of_ok first).symm.trans h⟩

variable [TokenSource σ]

/-- Looking at the current kind never fails and changes nothing. -/
theorem kind_bind (f : Token.Kind → Parser σ α) (s : ParserState σ) :
    (kind >>= f) s = f (TokenSource.current s.source).kind s := rfl

theorem literal_apply (s : ParserState σ) :
    literal s =
      match Literal.ofToken? (TokenSource.current s.source) with
      | none => refuse (.oneOf Expectation.operandStart) s
      | some (.error fault) =>
        .error (.scan ⟨(TokenSource.current s.source).position, fault⟩)
      | some (.ok value) => (advance >>= fun _ => pure (.literal value)) s := by
  change (match Literal.ofToken? (TokenSource.current s.source) with
    | none => _
    | some (.error fault) => _
    | some (.ok value) => _ : Parser σ Node) s = _
  rcases Literal.ofToken? (TokenSource.current s.source) with _ | fault | value <;> rfl

section Success

variable {s s' : ParserState σ} {u : Unit}

theorem deepen_eq_ok (h : deepen s = .ok (u, s')) :
    s.depth < maxDepth ∧ s' = { s with depth := s.depth + 1 } := by
  simp only [deepen] at h
  split at h
  · next room =>
    cases h
    exact ⟨room, rfl⟩
  · cases h

theorem enter_eq_ok (h : enter s = .ok (u, s')) :
    s.nesting < maxNesting ∧ s.depth < maxDepth ∧
      s' = { s with nesting := s.nesting + 1, depth := s.depth + 1 } := by
  simp only [enter] at h
  split at h
  · next room =>
    obtain ⟨deep, rfl⟩ := deepen_eq_ok h
    exact ⟨room, deep, rfl⟩
  · cases h

theorem advance_apply_eq_ok {t : Token} (h : advance s = .ok (t, s')) :
    TokenSource.advance s.source = .ok s'.source ∧ t = TokenSource.current s.source ∧
      s' = { s with source := s'.source } := by
  simp only [advance] at h
  split at h
  · next next =>
    cases h
    exact ⟨next, rfl, rfl⟩
  · cases h

theorem ahead_apply_eq_ok {index : Nat} {k : Token.Kind} (h : ahead index s = .ok (k, s')) :
    TokenSource.ahead index s.source = .ok (k, s'.source) ∧
      s' = { s with source := s'.source } := by
  simp only [ahead] at h
  split at h
  · next next =>
    cases h
    exact ⟨next, rfl⟩
  · cases h

end Success

end ElTemplate.Parser
