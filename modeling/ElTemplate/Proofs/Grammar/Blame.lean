import ElTemplate.Proofs.Grammar.Completion
import ElTemplate.Proofs.Grammar.Language

/-!
# What an error blames

An error that is not a limit's blames one place: the tokens before it can be completed, the token
there is of none of the kinds that would have been accepted, and those kinds do go on from there. A
limit's error blames a token as well, whatever could stand there. A scanning error blames the end of
the tape. Where the tape ends with an error, a parser that moves on from the last token runs into
it, so that it never refuses the end.
-/

namespace ElTemplate

open ParserState (before)

/-- Reading the literal of the token does not fail. -/
def Token.IsReadable (t : Token) : Prop :=
  ∀ fault, Literal.ofToken? t ≠ some (.error fault)

namespace Grammar

open ElTemplate.Parser

/-- The error is met at a token of the tape or at its end. -/
def StopsOn (ts : List Token) (final : Except ScanError Nat) (e : CompileError) : Prop :=
  ∃ us vs expected, ts = us ++ vs ∧ (⟨vs, final⟩ : Tape).EndsWell ∧
    e = .parse ⟨(⟨vs, final⟩ : Tape).current, expected⟩

/-- The error blames one place on the tape, up to which the tokens can be completed. -/
inductive Blames (completes : List Token → Prop) (ts : List Token)
    (final : Except ScanError Nat) : CompileError → Prop where
  | limit {e : CompileError} (limit : e.IsLimit) (stops : StopsOn ts final e) :
      Blames completes ts final e
  /-- A token was met that is of none of the kinds that go on from there. Every token of these kinds
  goes on if it can be read at all. -/
  | refused {us vs : List Token} {kinds : List Token.Kind} (split : ts = us ++ vs)
      (ended : (⟨vs, final⟩ : Tape).EndsWell) (other : kindOf vs ∉ kinds)
      (accepts : ∀ t : Token, t.kind ∈ kinds → t.IsReadable → completes (us ++ [t])) :
      Blames completes ts final (.parse ⟨(⟨vs, final⟩ : Tape).current, .oneOf kinds⟩)
  /-- No further token could be scanned. -/
  | unscanned {e : ScanError} (failed : final = .error e) (whole : completes ts) :
      Blames completes ts final (.scan e)
  /-- A token's literal could not be read. -/
  | malformed {t : Token} {fault : ScanFault} (present : t ∈ ts)
      (unreadable : Literal.ofToken? t = some (.error fault)) :
      Blames completes ts final (.scan ⟨t.position, fault⟩)

variable {α : Type} {completes completes' : List Token → Prop} {ts rest : List Token} {t : Token}
  {final : Except ScanError Nat} {names : Names} {nesting depth : Nat} {e : CompileError}

namespace StopsOn

theorem append (h : StopsOn ts final e) (us : List Token) : StopsOn (us ++ ts) final e := by
  obtain ⟨us', vs, expected, rfl, ended, rfl⟩ := h
  exact ⟨us ++ us', vs, expected, (List.append_assoc ..).symm, ended, rfl⟩

variable (ended : (⟨ts, final⟩ : Tape).EndsWell)

include ended

theorem here (expected : Expectation) :
    StopsOn ts final (.parse ⟨(⟨ts, final⟩ : Tape).current, expected⟩) :=
  ⟨[], ts, expected, rfl, ended, rfl⟩

/-- One level deeper is refused at the token ahead. -/
theorem deepen (failed : Parser.deepen (before ts final names nesting depth) = .error e) :
    StopsOn ts final e := by
  rw [deepen_before] at failed
  split at failed
  · cases failed
  · cases failed
    exact here ended _

theorem enter (failed : Parser.enter (before ts final names nesting depth) = .error e) :
    StopsOn ts final e := by
  rw [Parser.enter] at failed
  split at failed
  · exact deepen ended failed
  · cases failed
    exact here ended _

end StopsOn

namespace Blames

theorem imp (h : Blames completes ts final e) (further : ∀ ws, completes ws → completes' ws) :
    Blames completes' ts final e := by
  cases h with
  | limit limit stops => exact .limit limit stops
  | @refused us _ _ split ended other accepts =>
    exact .refused split ended other fun t member readable =>
      further (us ++ [t]) (accepts t member readable)
  | unscanned failed whole => exact .unscanned failed (further ts whole)
  | malformed present unreadable => exact .malformed present unreadable

/-- Tokens that have been read before are part of what is completed. -/
theorem append {us : List Token} (h : Blames (fun ws => completes (us ++ ws)) ts final e) :
    Blames completes (us ++ ts) final e := by
  cases h with
  | limit limit stops => exact .limit limit (stops.append us)
  | @refused us' vs kinds split ended other accepts =>
    have whole : us ++ ts = (us ++ us') ++ vs := by rw [split, List.append_assoc]
    refine .refused whole ended other fun t member readable => ?_
    rw [List.append_assoc]
    exact accepts t member readable
  | unscanned failed whole => exact .unscanned failed whole
  | malformed present unreadable =>
    exact .malformed (List.mem_append_right us present) unreadable

theorem cons (h : Blames (fun ws => completes (t :: ws)) ts final e) :
    Blames completes (t :: ts) final e :=
  show Blames completes ([t] ++ ts) final e from append h

/-- The token ahead is refused. -/
theorem here {kinds : List Token.Kind} (ended : (⟨ts, final⟩ : Tape).EndsWell)
    (other : kindOf ts ∉ kinds)
    (accepts : ∀ t : Token, t.kind ∈ kinds → t.IsReadable → completes [t]) :
    Blames completes ts final (.parse ⟨(⟨ts, final⟩ : Tape).current, .oneOf kinds⟩) :=
  .refused (List.nil_append ts).symm ended other accepts

end Blames

theorem exists_cons_of_kind {k : Token.Kind} (same : kindOf ts = k) (proper : k ≠ .eof) :
    ∃ t rest, ts = t :: rest ∧ t.kind = k := by
  obtain ⟨t, rest, rfl⟩ := Tape.exists_cons_of_kindOf (same ▸ proper)
  exact ⟨t, rest, rfl, same⟩

section Steps

variable {β : Type}

/-- What can only be stopped by a limit is passed otherwise. -/
theorem leads_blames {p : Parser Tape α} {f : α → Parser Tape β} {s s' : ParserState Tape} {a : α}
    {fits : Prop} (leads : Leads (p s) fits (.ok (a, s')))
    (stops : ∀ e, p s = .error e → StopsOn ts final e) (failed : (p >>= f) s = .error e)
    (next : fits → f a s' = .error e → Blames completes ts final e) :
    Blames completes ts final e := by
  by_cases room : fits
  · rw [bind_of_ok (leads.reaches room)] at failed
    exact next room failed
  · obtain ⟨e', limit, stopped⟩ := leads.stops room
    cases (bind_of_error stopped).symm.trans failed
    exact .limit limit (stops _ stopped)

variable {f : Token → Parser Tape β}

/-- Moving on fails only where the tape ends with an error, behind its last token. -/
theorem advance_blames (whole : completes [t])
    (failed : (advance >>= f) (before (t :: ts) final names nesting depth) = .error e)
    (next : (⟨ts, final⟩ : Tape).EndsWell → f t (before ts final names nesting depth) = .error e →
      Blames completes (t :: ts) final e) :
    Blames completes (t :: ts) final e := by
  match ts, final with
  | u :: ts, final => exact next nofun failed
  | [], .ok stop => exact next (fun _ => ⟨stop, rfl⟩) failed
  | [], .error se =>
    cases failed
    exact .unscanned rfl whole

/-- Only a token of the expected kind is passed. -/
theorem expect_blames {k : Token.Kind} (accepts : ∀ t : Token, t.kind = k → completes [t])
    (proper : k ≠ .eof) (ended : (⟨ts, final⟩ : Tape).EndsWell)
    (failed : (expect k >>= f) (before ts final names nesting depth) = .error e)
    (next : ∀ t rest, ts = t :: rest → t.kind = k → (⟨rest, final⟩ : Tape).EndsWell →
      f t (before rest final names nesting depth) = .error e → Blames completes ts final e) :
    Blames completes ts final e := by
  by_cases same : kindOf ts = k
  · obtain ⟨t, rest, rfl, hkind⟩ := exists_cons_of_kind same proper
    have moves : expect k (before (t :: rest) final names nesting depth) =
        advance (before (t :: rest) final names nesting depth) := by
      rw [expect, kind_before, if_pos same]
    rw [bind_apply, moves] at failed
    exact advance_blames (accepts t hkind) failed (next t rest rfl hkind)
  · have refused : expect k (before ts final names nesting depth) =
        refuse (.oneOf [k]) (before ts final names nesting depth) := by
      rw [expect, kind_before, if_neg same]
    rw [bind_of_error refused] at failed
    cases failed
    exact .here ended (by simpa using same) fun t member _ =>
      accepts t (List.mem_singleton.mp member)

/-- Looking for a qualified call fails where the tape ends with an error, behind what may become
one. -/
theorem atQualifiedCall_eq_error
    (failed : atQualifiedCall (before ts final names nesting depth) = .error e) :
    ∃ se, final = .error se ∧ e = .scan se ∧ ∃ colon : Token, colon.kind = .colon ∧
      (ts = [colon] ∨ ∃ name : Token, name.kind = .identifier ∧ ts = [colon, name]) := by
  rw [atQualifiedCall, kind_before] at failed
  split at failed
  · next hcolon =>
    obtain ⟨colon, ts, rfl, hcolon⟩ := exists_cons_of_kind hcolon (by decide)
    cases ts with
    | nil =>
      cases final with
      | ok stop => cases failed
      | error se =>
        cases failed
        exact ⟨se, rfl, rfl, colon, hcolon, .inl rfl⟩
    | cons name ts =>
      rcases bind_eq_error failed with stuck | ⟨k, s', known, failed⟩
      · cases stuck
      · obtain ⟨rfl, rfl⟩ := ahead_eq_ok known
        split at failed
        · next hname =>
          cases ts with
          | nil =>
            cases final with
            | ok stop => cases failed
            | error se =>
              cases failed
              exact ⟨se, rfl, rfl, colon, hcolon, .inr ⟨name, hname, rfl⟩⟩
          | cons paren ts => cases failed
        · cases failed
  · cases failed

end Steps

end Grammar

end ElTemplate
