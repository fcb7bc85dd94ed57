import ElTemplate.Proofs.Template.Blame
import ElTemplate.Proofs.Token.Regular

/-!
# Where compiling fails

A source text that no limit stops fails to compile at its first offending token: the tokens before
it begin some template, and every token of a kind that was expected in its place goes on with one.
Where a token cannot be scanned, the tokens before it begin a template, and this is so even if the
scanner was asked for it ahead of time.
-/

namespace ElTemplate

open ParserState (before)

namespace Scanner

/-- The literals of scanned tokens can be read. -/
theorem isReadable_of_mem_tape (s : Scanner) : ∀ t ∈ s.tape.tokens, t.IsReadable := by
  intro t present fault unreadable
  have regular := s.regular_of_mem_tape t present
  rw [Grammar.kind_of_malformed unreadable] at regular
  obtain ⟨value, read⟩ := Option.isSome_iff_exists.mp regular.2
  rw [Literal.ofToken?.eq_def, Grammar.kind_of_malformed unreadable] at unreadable
  simp only [read] at unreadable
  cases unreadable

end Scanner

namespace Token

/-- There are readable tokens of every kind. -/
theorem exists_isReadable (kind : Kind) : ∃ t : Token, t.kind = kind ∧ t.IsReadable := by
  refine ⟨⟨kind, "0.0", 0⟩, rfl, fun fault unreadable => ?_⟩
  cases Grammar.kind_of_malformed unreadable
  cases unreadable

end Token

namespace Template

open Grammar

variable {features : FeatureSet} {source : String} {e : CompileError}

/-- The error blames a place on the tape of the source. -/
theorem compile_blames (failed : compile features source = .error e) :
    Blames (CompletesSentence features) (tape source).tokens (tape source).final e := by
  rw [compile_eq_ofTape] at failed
  generalize tape source = tape at failed ⊢
  obtain ⟨tokens, final⟩ := tape
  by_cases ended : (⟨tokens, final⟩ : Tape).EndsWell
  · have parsed : Parser.run features source.length (⟨tokens, final⟩ : Tape) = .error e := by
      cases tokens with
      | nil =>
        obtain ⟨stop, rfl⟩ := ended rfl
        exact failed
      | cons t tokens => exact failed
    rw [run_tape] at parsed
    cases read : Parser.template features source.length (before tokens final .empty 0 0) with
    | error e' =>
      rw [read] at parsed
      cases parsed
      exact template_blames ended read
    | ok result =>
      rw [read] at parsed
      cases parsed
  · cases tokens with
    | nil =>
      cases final with
      | ok stop => exact absurd (fun _ => ⟨stop, rfl⟩) ended
      | error se =>
        cases failed
        exact .unscanned rfl ⟨[], _, _, .empty⟩
    | cons t tokens => exact absurd nofun ended

/-- If no limit stops it, then compiling fails at a token that is of none of the kinds named as
expected there, or where no token can be scanned. The tokens before it begin a template, and so they
do with any token of those kinds behind them. -/
theorem compile_eq_error (failed : compile features source = .error e)
    (unlimited : ¬ e.IsLimit) :
    ∃ (ts : List Token) (s s' : Scanner), (Scanner.ofChars source.toList).Emits ts s ∧
      match e with
      | .parse e => s.next = (.ok e.encountered, s') ∧
          ∃ kinds, e.expected = .oneOf kinds ∧ e.encountered.kind ∉ kinds ∧
            ∀ kind ∈ kinds, (∃ t : Token, t.kind = kind ∧ t.IsReadable) ∧
              ∀ t : Token, t.kind = kind → t.IsReadable → CompletesSentence features (ts ++ [t])
      | .scan e => s.next = (.error e, s') ∧ CompletesSentence features ts := by
  have blamed := compile_blames failed
  cases blamed with
  | limit limit => exact absurd limit unlimited
  | @refused us vs kinds split ended other accepts =>
    have scanned : (Scanner.ofChars source.toList).tape = ⟨us ++ vs, (tape source).final⟩ := by
      rw [← split]
      rfl
    obtain ⟨s, emits, rest⟩ := Scanner.Emits.of_tape scanned
    obtain ⟨t, s', next⟩ := Scanner.exists_next_of_tape (rest ▸ ended : s.tape.EndsWell)
    have current : (⟨vs, (tape source).final⟩ : Tape).current = t := by
      rw [← rest]
      exact Scanner.tape_current next
    refine ⟨us, s, s', emits, ?_, kinds, rfl, ?_, fun kind member =>
      ⟨Token.exists_isReadable kind, ?_⟩⟩
    · rw [next, current]
    · rw [← Tape.kind_current vs (tape source).final] at other
      exact other
    · rintro t rfl readable
      exact accepts t member readable
  | unscanned final whole =>
    have scanned : (Scanner.ofChars source.toList).tape =
        ⟨(tape source).tokens ++ [], (tape source).final⟩ := by
      rw [List.append_nil]
      rfl
    obtain ⟨s, emits, rest⟩ := Scanner.Emits.of_tape scanned
    rw [final] at rest
    obtain ⟨s', next⟩ := Scanner.next_of_tape_error rest
    exact ⟨_, s, s', emits, next, whole⟩
  | malformed present unreadable =>
    exact absurd unreadable ((Scanner.ofChars source.toList).isReadable_of_mem_tape _ present _)

/-- A template that ends in its block is refused at its end, where an operand could stand. -/
theorem compile_eq_error_unclosed :
    compile .none "$\x7b" =
      .error (.parse ⟨⟨.eof, "", 2⟩, .oneOf Expectation.operandStart⟩) ∧
    ∃ (ts : List Token) (s s' : Scanner), (Scanner.ofChars "$\x7b".toList).Emits ts s ∧
      s.next = (.ok ⟨.eof, "", 2⟩, s') ∧ CompletesSentence .none (ts ++ [⟨.not, "!", 2⟩]) := by
  have failed : compile .none "$\x7b" =
      .error (.parse ⟨⟨.eof, "", 2⟩, .oneOf Expectation.operandStart⟩) := rfl
  have unlimited : ¬ CompileError.IsLimit
      (.parse ⟨⟨.eof, "", 2⟩, .oneOf Expectation.operandStart⟩) := by
    rintro (limit | limit) <;> cases limit
  obtain ⟨ts, s, s', emits, next, kinds, expected, -, further⟩ := compile_eq_error failed unlimited
  cases expected
  exact ⟨failed, ts, s, s', emits, next, (further .not (by decide)).2 _ rfl nofun⟩

end Template

end ElTemplate
