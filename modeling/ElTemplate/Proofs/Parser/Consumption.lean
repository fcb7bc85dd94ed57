import ElTemplate.Proofs.Grammar.Language
import ElTemplate.Proofs.Parser.Counters

/-!
# Which tokens a parser has read

At every step of a run the tokens that have been moved past, the current one and those that wait in
the queue are what a fresh scanner gives first, and the scanner of the reader is where that one
would be. Only moving on puts a token behind the reader. A successful run ends at the end of the
source, so it has moved past all tokens of the source and no others.
-/

namespace ElTemplate

/-- If the end is among the given tokens, then those in front of it are all there are. -/
theorem Scanner.Emits.tokens_of_eof {s s' : Scanner} {t : Token} {us ts : List Token}
    (h : s.Emits (us ++ t :: ts) s') (proper : ∀ u ∈ us, u.kind ≠ .eof) (kind : t.kind = .eof) :
    s.tape.tokens = us := by
  induction us generalizing s with
  | nil =>
    cases h with
    | cons next _ => rw [tape_of_eof next kind]
  | cons u us ih =>
    obtain ⟨other, proper⟩ := List.forall_mem_cons.mp proper
    cases h with
    | cons next further =>
      rw [tape_of_token next other]
      exact congrArg (u :: ·) (ih further proper)

/-- A scanner that fails later on has this error at the end of its tape. -/
theorem Scanner.Emits.final_of_error {s s' s'' : Scanner} {ts : List Token} {e : ScanError}
    (h : s.Emits ts s') (failed : s'.next = (.error e, s'')) : s.tape.final = .error e := by
  have bad := h.kindAt_length 0
  rw [kindAt_of_error failed, Tape.kindAt] at bad
  split at bad
  · cases bad
  · cases bad
  · next final =>
    cases bad
    exact final

namespace Reader

variable {start : Scanner} {behind : List Token} {r r' : Reader}

/-- The scanner at the start gives the tokens behind the reader, then the current one and those in
the queue, of which there are at most two; the reader's scanner is what it has become then. -/
structure Continues (start : Scanner) (behind : List Token) (r : Reader) : Prop where
  emits : start.Emits (behind ++ r.current :: r.queue) r.scanner
  short : r.queue.length ≤ 2

theorem continues_ofChars {source : List Char} (first : ofChars source = .ok r) :
    r.Continues (.ofChars source) [] := by
  rw [ofChars] at first
  split at first
  · next t scanner next =>
    cases first
    exact ⟨.cons next .nil, Nat.zero_le _⟩
  · cases first

/-- Moving on puts the current token behind the reader. -/
theorem Continues.advance (h : r.Continues start behind) (moved : r.advance = .ok r') :
    r'.Continues start (behind ++ [r.current]) := by
  obtain ⟨current, queue, scanner⟩ := r
  obtain ⟨emits, short⟩ := h
  cases queue with
  | cons t queue =>
    cases moved
    refine ⟨?_, Nat.le_of_succ_le short⟩
    rw [List.append_assoc]
    exact emits
  | nil =>
    simp only [Reader.advance] at moved
    split at moved
    · next t scanner next =>
      cases moved
      exact ⟨emits.concat next, Nat.zero_le _⟩
    · cases moved

/-- One more token waits in the queue. -/
theorem Continues.wait (h : r.Continues start behind) (room : r.queue.length < 2) {t : Token}
    {scanner : Scanner} (next : r.scanner.next = (.ok t, scanner)) :
    Continues start behind { r with queue := r.queue ++ [t], scanner } where
  emits := by
    have emits := h.emits.concat next
    rw [List.append_assoc] at emits
    exact emits
  short := by
    rw [List.length_append]
    exact room

/-- Filling the queue as far as it may go puts no token behind the reader. -/
theorem Continues.fill (h : r.Continues start behind) {count : Nat}
    (room : r.queue.length + count ≤ 2) (filled : r.fill count = .ok r') :
    r'.Continues start behind := by
  induction count generalizing r with
  | zero =>
    cases filled
    exact h
  | succ count ih =>
    rw [Reader.fill] at filled
    split at filled
    · next t scanner next =>
      refine ih (h.wait (by omega) next) ?_ filled
      rw [List.length_append, List.length_singleton]
      omega
    · cases filled

theorem Continues.ahead (h : r.Continues start behind) {index : Nat} (near : index < 2)
    {k : Token.Kind} (found : r.ahead index = .ok (k, r')) : r'.Continues start behind := by
  have short := h.short
  exact h.fill (by omega) (ahead_eq_ok found).1

/-- Moving on fails with the error that the source ends with. -/
theorem Continues.final_of_advance (h : r.Continues start behind) {e : ScanError}
    (failed : r.advance = .error e) : start.tape.final = .error e := by
  obtain ⟨current, queue, scanner⟩ := r
  simp only [Reader.advance] at failed
  split at failed
  · cases failed
  · split at failed
    · cases failed
    · next next =>
      cases failed
      exact h.emits.final_of_error next

/-- Filling the queue fails with the error that the source ends with. -/
theorem Continues.final_of_fill (h : r.Continues start behind) {count : Nat}
    (room : r.queue.length + count ≤ 2) {e : ScanError} (failed : r.fill count = .error e) :
    start.tape.final = .error e := by
  induction count generalizing r with
  | zero => cases failed
  | succ count ih =>
    rw [Reader.fill] at failed
    split at failed
    · next t scanner next =>
      refine ih (h.wait (by omega) next) ?_ failed
      rw [List.length_append, List.length_singleton]
      omega
    · next next =>
      cases failed
      exact h.emits.final_of_error next

theorem Continues.final_of_ahead (h : r.Continues start behind) {index : Nat} (near : index < 2)
    {e : ScanError} (failed : r.ahead index = .error e) : start.tape.final = .error e := by
  have short := h.short
  cases filled : r.fill (index + 1 - r.queue.length) with
  | error e' =>
    simp only [Reader.ahead, filled, bind, Except.bind] at failed
    cases failed
    exact h.final_of_fill (by omega) filled
  | ok r₁ =>
    simp only [Reader.ahead, filled, bind, Except.bind] at failed
    cases failed

end Reader

namespace Parser

variable {α : Type} {start : Scanner} {behind : List Token} {levels : Nat}
  {s s' : ParserState Reader} {e : Event Reader} {events : List (Event Reader)}
  {result : Except CompileError (ParserState Reader)}

/-- The tokens that the steps move past. -/
def passed (events : List (Event Reader)) : List Token :=
  (events.filter (·.action = .advance)).map (·.state.source.current)

theorem passed_cons (e : Event Reader) (events : List (Event Reader)) :
    passed (e :: events) = passed [e] ++ passed events := by
  rw [passed, ← List.singleton_append, List.filter_append, List.map_append]
  rfl

/-- A step leaves the tokens behind the reader but for the one that it moves past. -/
theorem Performs.continues {action : Action} {p : Parser Reader α} {a : α}
    (performs : Performs action p) (ok : p s = .ok (a, s'))
    (h : s.source.Continues start behind) :
    s'.source.Continues start (behind ++ passed [⟨levels, action, s⟩]) := by
  cases performs with
  | advance => exact h.advance (advance_apply_eq_ok ok).1
  | ahead near =>
    rw [show passed _ = [] from rfl, List.append_nil]
    exact h.ahead near (ahead_apply_eq_ok ok).1
  | deepen =>
    obtain ⟨-, rfl⟩ := deepen_eq_ok ok
    exact (List.append_nil behind).symm ▸ h
  | enter =>
    obtain ⟨-, -, rfl⟩ := enter_eq_ok ok
    exact (List.append_nil behind).symm ▸ h
  | refuse | fail => cases ok
  | kind | state | leave | release | identifier | call =>
    cases ok
    exact (List.append_nil behind).symm ▸ h

/-- At every step, and at the end of the run, the reader continues the scanner behind the tokens
that have been moved past until then. -/
structure Tracks (start : Scanner) (behind : List Token) (events : List (Event Reader))
    (result : Except CompileError (ParserState Reader)) : Prop where
  steps : ∀ before e after, events = before ++ e :: after →
    e.state.source.Continues start (behind ++ passed before)
  ends : ∀ s, result = .ok s → s.source.Continues start (behind ++ passed events)

theorem Tracks.nil (ends : ∀ s, result = .ok s → s.source.Continues start behind) :
    Tracks start behind [] result where
  steps before e after split := by cases before <;> cases split
  ends s ok := (List.append_nil behind).symm ▸ ends s ok

theorem Tracks.cons (here : e.state.source.Continues start behind)
    (rest : Tracks start (behind ++ passed [e]) events result) :
    Tracks start behind (e :: events) result where
  steps before e' after split := by
    rcases List.cons_eq_append_iff.mp split with ⟨rfl, same⟩ | ⟨before, rfl, rfl⟩
    · cases same
      exact (List.append_nil behind).symm ▸ here
    · rw [passed_cons, ← List.append_assoc]
      exact rest.steps before e' after rfl
  ends s ok := by
    rw [passed_cons, ← List.append_assoc]
    exact rest.ends s ok

/-- By induction on the run, with the tokens behind the reader growing along. -/
theorem Runs.tracks (runs : Runs s events result) (h : s.source.Continues start behind) :
    Tracks start behind events result := by
  induction runs generalizing behind with
  | done =>
    refine .nil fun s' ok => ?_
    cases ok
    exact h
  | call _ ih => exact .cons h (ih ((List.append_nil behind).symm ▸ h))
  | step performs ok _ ih => exact .cons h (ih (performs.continues ok h))
  | fail => exact .cons h (.nil nofun)

/-- The step is taken where the reader continues the scanner behind these tokens, and what it does
to the reader agrees with that. -/
structure Event.Transparent (start : Scanner) (behind : List Token) (e : Event Reader) : Prop where
  here : e.state.source.Continues start behind
  /-- Each token that looking ahead reads is one more that waits. -/
  looks : ∀ index, e.action = .ahead index →
    ∀ count ≤ index + 1 - e.state.source.queue.length,
    ∀ r, e.state.source.fill count = .ok r → r.Continues start behind
  /-- Moving on moves past the current token and no other. -/
  moves : e.action = .advance → ∀ r, e.state.source.advance = .ok r →
    r.Continues start (behind ++ [e.state.source.current])
  /-- An error is the one that the source ends with. -/
  fails : ∀ error, (e.action = .advance ∧ e.state.source.advance = .error error) ∨
    (∃ index, e.action = .ahead index ∧ e.state.source.ahead index = .error error) →
    start.tape.final = .error error

theorem transparent_of_continues (here : e.state.source.Continues start behind)
    (near : ∀ index, e.action = .ahead index → index < 2) : e.Transparent start behind where
  here := here
  looks index ahead count few r filled := by
    have near := near index ahead
    have short := here.short
    exact here.fill (by omega) filled
  moves _ r moved := here.advance moved
  fails error failed := by
    rcases failed with ⟨-, failed⟩ | ⟨index, ahead, failed⟩
    · exact here.final_of_advance failed
    · exact here.final_of_ahead (near index ahead) failed

theorem Performs.near {action : Action} {p : Parser Reader α} (performs : Performs action p)
    {index : Nat} (ahead : action = .ahead index) : index < 2 := by
  cases performs <;> cases ahead
  assumption

/-- No run looks further ahead than two tokens. -/
theorem Runs.near (runs : Runs s events result) :
    ∀ e ∈ events, ∀ index, e.action = .ahead index → index < 2 := by
  induction runs with
  | done => exact List.forall_mem_nil _
  | call _ ih => exact List.forall_mem_cons.mpr ⟨nofun, ih⟩
  | step performs _ _ ih =>
    exact List.forall_mem_cons.mpr ⟨fun index ahead => performs.near ahead, ih⟩
  | fail performs _ =>
    exact List.forall_mem_singleton.mpr fun index ahead => performs.near ahead

end Parser

namespace Template

open ElTemplate.Parser

variable {features : FeatureSet} {source : String} {t : Template} {reader : Reader}

/-- A successful run ends at the end of the source. -/
theorem ends_of_compile (first : Reader.ofChars source.toList = .ok reader)
    (compiled : compile features source = .ok t) :
    ∃ a s', Parser.template features source.length (initialState reader) = .ok (a, s') ∧
      s'.source.current.kind = .eof := by
  obtain ⟨s₁, parsed, -⟩ := template_of_compile compiled
  have proper := (Scanner.ofChars source.toList).ne_eof_of_mem_tape
  obtain ⟨root, -, -, -, rfl⟩ := Grammar.sound_template proper (length_tape_le source) parsed
  have follows : reader.Follows (tape source) :=
    ⟨_, (Reader.continues_ofChars first).emits, rfl⟩
  -- The end has been found on the tape, and the reader follows it there.
  have same := Simulates.template Reader.simulation_follows features source.length
    (initialState reader) (initialState (tape source)) ⟨follows, rfl, rfl, rfl, rfl⟩
  rw [show Parser.template features source.length (initialState (tape source)) = _ from parsed]
    at same
  generalize Parser.template features source.length (initialState reader) = outcome at same ⊢
  cases same with
  | @ok result _ related =>
    refine ⟨result.1, result.2, rfl, ?_⟩
    rw [related.2.source.current]
    rfl

/-- No step moves past the end of the source. -/
theorem ne_eof_of_mem_passed {u : Token} (h : u ∈ passed (steps features source)) :
    u.kind ≠ .eof := by
  obtain ⟨e, step, rfl⟩ := List.mem_map.mp h
  obtain ⟨step, advances⟩ := List.mem_filter.mp step
  exact (sound_steps features source e step).proper (of_decide_eq_true advances)

/-- A successful run has moved past all tokens of the source. -/
theorem passed_steps (compiled : compile features source = .ok t) :
    passed (steps features source) = (tape source).tokens := by
  cases first : Reader.ofChars source.toList with
  | error e =>
    simp only [compile, first] at compiled
    cases compiled
  | ok reader =>
    obtain ⟨a, s', read, kind⟩ := ends_of_compile first compiled
    have runs := runs_steps features first
    rw [read] at runs
    have ends := (runs.tracks (Reader.continues_ofChars first)).ends s' rfl
    exact (ends.emits.tokens_of_eof (fun u => ne_eof_of_mem_passed) kind).symm

/-- Reading ahead is transparent. At every step the current token, the queue of at most two, and
what the scanner is still going to give are together what a fresh scanner gives behind the tokens
that have been moved past. So a successful run has moved past the tokens of the source, in their
order. -/
theorem lookahead_transparent (features : FeatureSet) (source : String) :
    (∀ before e after, steps features source = before ++ e :: after →
      e.Transparent (.ofChars source.toList) (passed before)) ∧
    ∀ t, compile features source = .ok t →
      passed (steps features source) = (tape source).tokens := by
  refine ⟨fun before e after split => ?_, fun t => passed_steps⟩
  cases first : Reader.ofChars source.toList with
  | error err =>
    simp only [steps, first] at split
    cases before <;> cases split
  | ok reader =>
    have runs := runs_steps features first
    have here := (runs.tracks (Reader.continues_ofChars first)).steps before e after split
    have member : e ∈ steps features source := by
      rw [split]
      exact List.mem_append_right before List.mem_cons_self
    exact transparent_of_continues here (runs.near e member)

/-- The delimiter behind a conditional is looked at ahead of time, and the scanner is outside of the
block by then. -/
theorem lookahead_transparent_conditional :
    (∃ before e after, steps .none "$\x7bc?a:b\x7dx" = before ++ e :: after ∧
      e.state.source.queue.length = 2 ∧ e.state.source.scanner.mode = .text ∧
      e.Transparent (.ofChars "$\x7bc?a:b\x7dx".toList) (passed before)) ∧
    (passed (steps .none "$\x7bc?a:b\x7dx")).map Token.image =
      ["$\x7b", "c", "?", "a", ":", "b", "\x7d", "x"] := by
  obtain ⟨transparent, succeeds⟩ := lookahead_transparent .none "$\x7bc?a:b\x7dx"
  constructor
  · have outside : ∃ e ∈ steps .none "$\x7bc?a:b\x7dx",
        e.state.source.queue.length = 2 ∧ e.state.source.scanner.mode = .text := by
      decide +kernel
    obtain ⟨e, member, queue, mode⟩ := outside
    obtain ⟨before, after, split⟩ := List.append_of_mem member
    exact ⟨before, e, after, split, queue, mode, transparent before e after split⟩
  · have compiles : (compile .none "$\x7bc?a:b\x7dx").isOk := by decide +kernel
    cases compiled : compile .none "$\x7bc?a:b\x7dx" with
    | error e =>
      rw [compiled] at compiles
      cases compiles
    | ok t =>
      rw [succeeds t compiled, tape, Scanner.tape_of_steps 9 rfl]
      rfl

end Template

end ElTemplate
