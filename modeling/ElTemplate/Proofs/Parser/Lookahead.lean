import ElTemplate.Proofs.Parser.Simulation
import ElTemplate.Proofs.Token.Tape

/-!
# Reading ahead changes nothing

A reader keeps the tokens it was asked about too early in a queue. The current token, the queue and
what the scanner is still going to give are together the tape of an earlier scanner, and moving on
moves along that tape by one token. So a template is compiled from the tape of its source alone.
-/

namespace ElTemplate

namespace Reader

/-- The current token and the queue are the next tokens of the tape, and the scanner goes on where
they end. -/
def Follows (r : Reader) (tape : Tape) : Prop :=
  ∃ s : Scanner, s.Emits (r.current :: r.queue) r.scanner ∧ tape = s.tape

variable {r r' : Reader} {tape : Tape}

theorem Follows.current (h : r.Follows tape) : r.current = tape.current := by
  obtain ⟨s, emits, rfl⟩ := h
  cases emits with
  | cons next _ => exact (Scanner.tape_current next).symm

theorem Follows.advance (h : r.Follows tape) :
    Agree (fun _ => False) Follows r.advance tape.advance := by
  obtain ⟨current, queue, scanner⟩ := r
  obtain ⟨s, emits, rfl⟩ := h
  cases emits with
  | @cons _ s₁ _ _ _ first further =>
    cases further with
    | @cons _ s₂ _ t queue second rest =>
      rw [Scanner.tape_advance_ok first second]
      exact .ok ⟨s₁, .cons second rest, rfl⟩
    | nil =>
      simp only [Reader.advance]
      split
      · next t after second =>
        rw [Scanner.tape_advance_ok first second]
        exact .ok ⟨scanner, .cons second .nil, rfl⟩
      · next e after second =>
        rw [Scanner.tape_advance_error first second]
        exact .error e

/-- Filling the queue stays on the tape, and can only fail where the tape ends with an error. -/
theorem Follows.fill (h : r.Follows tape) (count : Nat) :
    (∃ r', r.fill count = .ok r' ∧ r'.Follows tape ∧
      r'.queue.length = r.queue.length + count) ∨
    (∃ e, r.fill count = .error e ∧
      ∀ index, r.queue.length + count ≤ index → tape.kindAt index = .error e) := by
  induction count generalizing r with
  | zero => exact .inl ⟨r, rfl, h, rfl⟩
  | succ count ih =>
    obtain ⟨s, emits, rfl⟩ := h
    rw [Reader.fill]
    split
    · next t scanner next =>
      have longer : Follows { r with queue := r.queue ++ [t], scanner } s.tape :=
        ⟨s, emits.concat next, rfl⟩
      have length : (r.queue ++ [t]).length + count = r.queue.length + (count + 1) := by
        simp only [List.length_append, List.length_singleton]
        omega
      rcases ih longer with ⟨r', filled, follows, size⟩ | ⟨e, failed, bad⟩
      · exact .inl ⟨r', filled, follows, size.trans length⟩
      · exact .inr ⟨e, failed, fun index far => bad index (length ▸ far)⟩
    · next e scanner next =>
      refine .inr ⟨e, rfl, fun index far => ?_⟩
      obtain ⟨further, rfl⟩ : ∃ further, index = (r.current :: r.queue).length + further :=
        Nat.exists_eq_add_of_le (by simp only [List.length_cons]; omega)
      rw [emits.kindAt_length, Scanner.kindAt_of_error next]

theorem Follows.ahead (h : r.Follows tape) (index : Nat) :
    Agree (fun _ => False) (SameValue Follows) (r.ahead index)
      (TokenSource.ahead index tape) := by
  change Agree _ _ ((r.fill (index + 1 - r.queue.length)).bind fun r' => _)
    ((tape.kindAt (index + 1)).map _)
  rcases h.fill (index + 1 - r.queue.length) with ⟨r', filled, follows, size⟩ | ⟨e, failed, bad⟩
  · obtain ⟨s, emits, rfl⟩ := id follows
    have queued : index < r'.queue.length := by omega
    have known : s.tape.kindAt (index + 1) = .ok r'.queue[index].kind :=
      emits.kindAt (Nat.succ_lt_succ queued)
    rw [filled, known]
    refine .ok ⟨?_, follows⟩
    simp [List.getElem?_eq_getElem queued]
  · rw [failed]
    by_cases queued : index + 1 ≤ r.queue.length
    · rw [Nat.sub_eq_zero_of_le queued] at failed
      cases failed
    · rw [bad (index + 1) (by omega)]
      exact .error e

/-- Filling the queue leaves what is there. -/
theorem fill_eq_ok {count : Nat} (h : r.fill count = .ok r') :
    r'.current = r.current ∧ ∃ more, r'.queue = r.queue ++ more ∧ more.length = count := by
  induction count generalizing r with
  | zero =>
    cases h
    exact ⟨rfl, [], (List.append_nil _).symm, rfl⟩
  | succ count ih =>
    rw [fill] at h
    split at h
    · next t scanner next =>
      obtain ⟨current, more, queue, length⟩ := ih h
      refine ⟨current, t :: more, ?_, congrArg (· + 1) length⟩
      rw [queue, List.append_assoc]
      rfl
    · cases h

/-- Looking ahead fills the queue and finds the kind there. -/
theorem ahead_eq_ok {index : Nat} {k : Token.Kind} (h : r.ahead index = .ok (k, r')) :
    r.fill (index + 1 - r.queue.length) = .ok r' ∧
      ∃ t, r'.queue[index]? = some t ∧ t.kind = k := by
  cases filled : r.fill (index + 1 - r.queue.length) with
  | error e =>
    simp only [ahead, filled, bind, Except.bind] at h
    cases h
  | ok r₁ =>
    simp only [ahead, filled, bind, Except.bind] at h
    cases h
    obtain ⟨-, more, queue, length⟩ := fill_eq_ok filled
    have enough : index < r'.queue.length := by
      rw [queue, List.length_append]
      omega
    refine ⟨rfl, r'.queue[index], List.getElem?_eq_getElem enough, ?_⟩
    rw [List.getElem?_eq_getElem enough]
    rfl

theorem simulation_follows : TokenSource.Simulation (fun _ => False) Follows where
  current := Follows.current
  advance := Follows.advance
  ahead index h := h.ahead index

end Reader

namespace Template

/-- The tokens of a source text, and how they end. -/
def tape (source : String) : Tape :=
  (Scanner.ofChars source.toList).tape

/-- The template that a tape spells, which holds at most `size` blocks and commas. -/
def ofTape (features : FeatureSet) (size : Nat) (tape : Tape) : Except CompileError Template :=
  match tape.tokens, tape.final with
  | [], .error e => .error (.scan e)
  | _, _ => Parser.run features size tape

/-- Compiling reads the tokens of the source one after the other, whatever is asked for ahead of
time. -/
theorem compile_eq_ofTape (features : FeatureSet) (source : String) :
    compile features source = ofTape features source.length (tape source) := by
  simp only [compile, Reader.ofChars, tape]
  cases first : (Scanner.ofChars source.toList).next with
  | mk result scanner =>
    cases result with
    | error e =>
      rw [Scanner.tape_of_error first]
      rfl
    | ok t =>
      have follows : Reader.Follows ⟨t, [], scanner⟩ (Scanner.ofChars source.toList).tape :=
        ⟨_, .cons first .nil, rfl⟩
      have same := Parser.run_eq_of_simulation Reader.simulation_follows features source.length
        follows
      by_cases kind : t.kind = .eof
      · rw [Scanner.tape_of_eof first kind] at same ⊢
        exact same
      · rw [Scanner.tape_of_token first kind] at same ⊢
        exact same

end Template

end ElTemplate
