import ElTemplate.Proofs.Template.Errors
import ElTemplate.Proofs.Token.Extent

/-!
# Where errors stand

Every error of a source, a limit's included, stands at the token that could not be read on or at the
characters that make no token. So the position of an error counts the characters before a place in
the source: those of the tokens that were read and the white space behind them.
-/

namespace ElTemplate

open Grammar

/-- The error stands behind these characters of the source. They are the characters of tokens and of
white space, and what comes next is the token that was met, the end, or what fails to be scanned. -/
inductive CompileError.Stands (source : List Char) : List Char → CompileError → Prop
  | token {ts : List Token} {s s' : Scanner} {taken : List Char} {tile : Tile} {e : ParseError}
      (emits : (Scanner.ofChars source).Emits ts s) (parted : source = taken ++ s.rest)
      (moves : s.Moves tile s') (met : e.encountered = tile.token) :
      Stands source (taken ++ tile.gap) (.parse e)
  | stop {ts : List Token} {s s' : Scanner} {taken gap : List Char} {e : ParseError}
      (emits : (Scanner.ofChars source).Emits ts s) (parted : source = taken ++ s.rest)
      (halts : s.Halts gap (.ok e.encountered) s') : Stands source (taken ++ gap) (.parse e)
  | unscanned {ts : List Token} {s s' : Scanner} {taken gap : List Char} {e : ScanError}
      (emits : (Scanner.ofChars source).Emits ts s) (parted : source = taken ++ s.rest)
      (halts : s.Halts gap (.error e) s') : Stands source (taken ++ gap) (.scan e)

namespace Scanner

variable {s s' : Scanner} {gap taken source : List Char} {last : Except ScanError Token}
  {ts : List Token}

theorem Emits.position_of_parted (emits : (ofChars source).Emits ts s)
    (parted : source = taken ++ s.rest) : s.position = taken.length := by
  obtain ⟨taken', parted', moved⟩ := emits.consumes
  obtain rfl : taken = taken' := List.append_cancel_right (parted.symm.trans parted')
  rw [moved]
  exact Nat.zero_add _

/-- Nothing is left of the source where a scanner halts with a token. It stands where this token
is. -/
theorem Halts.position_eq {t : Token} (halts : s.Halts gap (.ok t) s') :
    t.position = s.position + gap.length := by
  rcases halts.ended with ⟨last, -⟩ | ⟨fault, last⟩
  · cases last
    exact halts.position
  · cases last

theorem Halts.position_error {e : ScanError} (halts : s.Halts gap (.error e) s') :
    e.position = s.position + gap.length := by
  rcases halts.ended with ⟨last, -⟩ | ⟨fault, last⟩
  · cases last
  · cases last
    exact halts.position

end Scanner

namespace CompileError.Stands

variable {source before : List Char} {e : CompileError}

theorem position (h : Stands source before e) : e.position = before.length := by
  cases h with
  | token emits parted moves met =>
    rw [CompileError.position, met, moves.fits.position, emits.position_of_parted parted,
      List.length_append]
  | stop emits parted halts =>
    rw [CompileError.position, halts.position_eq, emits.position_of_parted parted,
      List.length_append]
  | unscanned emits parted halts =>
    rw [CompileError.position, halts.position_error, emits.position_of_parted parted,
      List.length_append]

theorem isPrefix (h : Stands source before e) : before <+: source := by
  cases h with
  | token emits parted moves met =>
    exact ⟨_, by rw [List.append_assoc, ← moves.parted, ← parted]⟩
  | stop emits parted halts => exact ⟨_, by rw [List.append_assoc, ← halts.parted, ← parted]⟩
  | unscanned emits parted halts => exact ⟨_, by rw [List.append_assoc, ← halts.parted, ← parted]⟩

end CompileError.Stands

namespace Template

open CompileError (Stands)

variable {features : FeatureSet} {source : String} {e : CompileError} {us vs : List Token}

/-- The token ahead at a place of the tape stands at a place of the source. -/
theorem exists_stands_token (split : (tape source).tokens = us ++ vs)
    (ended : (⟨vs, (tape source).final⟩ : Tape).EndsWell) (expected : Expectation) :
    ∃ before, Stands source.toList before
      (.parse ⟨(⟨vs, (tape source).final⟩ : Tape).current, expected⟩) := by
  have scanned : (Scanner.ofChars source.toList).tape = ⟨us ++ vs, (tape source).final⟩ := by
    rw [← split]
    rfl
  obtain ⟨s, emits, rest⟩ := Scanner.Emits.of_tape scanned
  obtain ⟨t, s', next⟩ := Scanner.exists_next_of_tape (rest ▸ ended : s.tape.EndsWell)
  have current : (⟨vs, (tape source).final⟩ : Tape).current = t := by
    rw [← rest]
    exact Scanner.tape_current next
  obtain ⟨taken, parted, -⟩ := emits.consumes
  rw [current]
  rcases s.moves_or_halts with ⟨tile, s₁, moves⟩ | ⟨gap, last, s₁, halts⟩
  · cases moves.next.symm.trans next
    exact ⟨_, .token emits parted moves rfl⟩
  · cases halts.next.symm.trans next
    exact ⟨_, .stop emits parted halts⟩

/-- Every error of a source stands at a place in it. -/
theorem exists_stands (failed : compile features source = .error e) :
    ∃ before, Stands source.toList before e := by
  cases compile_blames failed with
  | limit limit stops =>
    obtain ⟨us, vs, expected, split, ended, rfl⟩ := stops
    exact exists_stands_token split ended expected
  | refused split ended other accepts => exact exists_stands_token split ended _
  | unscanned final whole =>
    have scanned : (Scanner.ofChars source.toList).tape =
        ⟨(tape source).tokens ++ [], (tape source).final⟩ := by
      rw [List.append_nil]
      rfl
    obtain ⟨s, emits, rest⟩ := Scanner.Emits.of_tape scanned
    rw [final] at rest
    obtain ⟨s', next⟩ := Scanner.next_of_tape_error rest
    obtain ⟨taken, parted, -⟩ := emits.consumes
    rcases s.moves_or_halts with ⟨tile, s₁, moves⟩ | ⟨gap, last, s₁, halts⟩
    · cases moves.next.symm.trans next
    · cases halts.next.symm.trans next
      exact ⟨_, .unscanned emits parted halts⟩
  | malformed present unreadable =>
    exact absurd unreadable ((Scanner.ofChars source.toList).isReadable_of_mem_tape _ present _)

end Template

end ElTemplate
