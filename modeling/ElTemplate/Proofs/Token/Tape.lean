import ElTemplate.Proofs.Token.Progress
import ElTemplate.Token.Reader

/-!
# Tapes

What a scanner is going to give is a finite sequence of tokens that ends at the end of the source
or with an error. A tape is that sequence as plain data. It is a source of tokens like a reader, but
nothing is ever read ahead of time on it.
-/

namespace ElTemplate

/-- The tokens of a source from some point on, and the offset or the error at which they end. -/
structure Tape where
  tokens : List Token
  final : Except ScanError Nat
deriving Repr

namespace Tape

/-- The tape with one more token in front. -/
def push (t : Token) (tape : Tape) : Tape :=
  { tape with tokens := t :: tape.tokens }

/-- The token behind all others. -/
def last (tape : Tape) : Token :=
  ⟨.eof, "", match tape.final with | .ok position => position | .error e => e.position⟩

def current (tape : Tape) : Token :=
  tape.tokens.head?.getD tape.last

def advance (tape : Tape) : Except ScanError Tape :=
  match tape.tokens.tail, tape.final with
  | [], .error e => .error e
  | tokens, final => .ok ⟨tokens, final⟩

/-- The kind of a token counted from the current one, if the scanner comes so far. -/
def kindAt (tape : Tape) (index : Nat) : Except ScanError Token.Kind :=
  match tape.tokens.drop index, tape.final with
  | t :: _, _ => .ok t.kind
  | [], .ok _ => .ok .eof
  | [], .error e => .error e

instance : TokenSource Tape where
  current := current
  advance := advance
  ahead index tape := (tape.kindAt (index + 1)).map fun kind => (kind, tape)

variable {t : Token} {ts : List Token} {final : Except ScanError Nat} {position : Nat}

@[simp] theorem current_cons : current ⟨t :: ts, final⟩ = t := rfl

theorem advance_cons : advance ⟨t :: ts, .ok position⟩ = .ok ⟨ts, .ok position⟩ := by
  cases ts <;> rfl

/-- Moving on drops the token in front, whatever the tape ends with. -/
theorem advance_eq_ok {tape tape' : Tape} (h : tape.advance = .ok tape') :
    tape' = ⟨tape.tokens.tail, tape.final⟩ := by
  obtain ⟨tokens, final⟩ := tape
  simp only [advance] at h
  split at h
  · cases h
  · cases h
    rfl

end Tape

namespace Scanner

variable {s s' : Scanner} {t : Token} {ts : List Token} {e : ScanError}

/-- What the scanner is going to give. -/
def tape (s : Scanner) : Tape :=
  match _h : s.next with
  | (.error e, _) => ⟨[], .error e⟩
  | (.ok t, s') => if _kind : t.kind = .eof then ⟨[], .ok t.position⟩ else s'.tape.push t
termination_by s.rest.length
decreasing_by exact next_rest_lt _h _kind

theorem tape_of_error (h : s.next = (.error e, s')) : s.tape = ⟨[], .error e⟩ := by
  rw [tape]
  split
  · next h' => cases h.symm.trans h'; rfl
  · next h' => cases h.symm.trans h'

theorem tape_of_eof (h : s.next = (.ok t, s')) (kind : t.kind = .eof) :
    s.tape = ⟨[], .ok t.position⟩ := by
  rw [tape]
  split
  · next h' => cases h.symm.trans h'
  · next h' =>
    cases h.symm.trans h'
    rw [dif_pos kind]

theorem tape_of_token (h : s.next = (.ok t, s')) (kind : t.kind ≠ .eof) :
    s.tape = s'.tape.push t := by
  rw [tape]
  split
  · next h' => cases h.symm.trans h'
  · next h' =>
    cases h.symm.trans h'
    rw [dif_neg kind]

/-- What the scanner is going to give, if it comes to the end in this number of steps. -/
def tape? : Nat → Scanner → Option Tape
  | 0, _ => none
  | steps + 1, s =>
    match s.next with
    | (.error e, _) => some ⟨[], .error e⟩
    | (.ok t, s') =>
      if t.kind = .eof then some ⟨[], .ok t.position⟩ else (tape? steps s').map (·.push t)

/-- A tape is found by running the scanner for long enough. -/
theorem tape_of_steps (steps : Nat) {tape : Tape} (h : tape? steps s = some tape) :
    s.tape = tape := by
  induction steps generalizing s tape with
  | zero => cases h
  | succ steps ih =>
    rw [tape?] at h
    split at h
    · next next =>
      cases h
      exact tape_of_error next
    · next next =>
      split at h
      · next kind =>
        cases h
        exact tape_of_eof next kind
      · next kind =>
        obtain ⟨further, found, rfl⟩ := Option.map_eq_some_iff.mp h
        rw [tape_of_token next kind, ih found]

/-- The tape follows from the first step. -/
theorem tape_congr {s₁ s₂ : Scanner} (h : s₁.next = s₂.next) : s₁.tape = s₂.tape := by
  cases found : s₂.next with
  | mk result after =>
    cases result with
    | error e => rw [tape_of_error (h.trans found), tape_of_error found]
    | ok t =>
      by_cases kind : t.kind = .eof
      · rw [tape_of_eof (h.trans found) kind, tape_of_eof found kind]
      · rw [tape_of_token (h.trans found) kind, tape_of_token found kind]

theorem length_tape_le (s : Scanner) : s.tape.tokens.length ≤ s.rest.length := by
  induction s using tape.induct with
  | case1 s e s' next =>
    rw [tape_of_error next]
    exact Nat.zero_le _
  | case2 s t s' next kind =>
    rw [tape_of_eof next kind]
    exact Nat.zero_le _
  | case3 s t s' next kind ih =>
    rw [tape_of_token next kind]
    exact Nat.lt_of_le_of_lt ih (next_rest_lt next kind)

/-- The end is not on the tape, but where it ends. -/
theorem ne_eof_of_mem_tape (s : Scanner) : ∀ t ∈ s.tape.tokens, t.kind ≠ .eof := by
  induction s using tape.induct with
  | case1 s e s' next =>
    rw [tape_of_error next]
    exact nofun
  | case2 s t s' next kind =>
    rw [tape_of_eof next kind]
    exact nofun
  | case3 s t s' next kind ih =>
    rw [tape_of_token next kind]
    exact List.forall_mem_cons.mpr ⟨kind, ih⟩

/-- A scanner whose tape holds nothing but an error gives that error. -/
theorem next_of_tape_error (h : s.tape = ⟨[], .error e⟩) : ∃ s', s.next = (.error e, s') := by
  cases next : s.next with
  | mk result s' =>
    cases result with
    | error e' =>
      cases (tape_of_error next).symm.trans h
      exact ⟨s', rfl⟩
    | ok t =>
      by_cases kind : t.kind = .eof
      · cases (tape_of_eof next kind).symm.trans h
      · cases (tape_of_token next kind).symm.trans h

/-- A scanner whose tape ends well, if nothing is left on it, gives a token. -/
theorem exists_next_of_tape (h : s.tape.tokens = [] → ∃ stop, s.tape.final = .ok stop) :
    ∃ t s', s.next = (.ok t, s') := by
  cases next : s.next with
  | mk result s' =>
    cases result with
    | ok t => exact ⟨t, s', rfl⟩
    | error e =>
      rw [tape_of_error next] at h
      obtain ⟨stop, final⟩ := h rfl
      cases final

theorem tape_current (h : s.next = (.ok t, s')) : s.tape.current = t := by
  by_cases kind : t.kind = .eof
  · rw [tape_of_eof h kind]
    rcases next_ok h with ⟨rfl, -⟩ | ⟨further, -⟩
    · rfl
    · exact absurd kind further
  · rw [tape_of_token h kind]
    rfl

/-- Past the end of the source the tape stays as it is. -/
theorem tape_after_eof (h : s.next = (.ok t, s')) (kind : t.kind = .eof) : s'.tape = s.tape := by
  rw [tape_of_eof h kind, tape_of_eof (next_after_eof h kind) kind]

theorem tape_advance_ok {t' : Token} {s'' : Scanner} (h : s.next = (.ok t, s'))
    (h' : s'.next = (.ok t', s'')) : s.tape.advance = .ok s'.tape := by
  by_cases kind : t.kind = .eof
  · rw [tape_after_eof h kind, tape_of_eof h kind]
    rfl
  · rw [tape_of_token h kind]
    by_cases kind' : t'.kind = .eof
    · rw [tape_of_eof h' kind']
      rfl
    · rw [tape_of_token h' kind']
      rfl

theorem tape_advance_error (h : s.next = (.ok t, s')) {s'' : Scanner}
    (h' : s'.next = (.error e, s'')) : s.tape.advance = .error e := by
  by_cases kind : t.kind = .eof
  · cases h'.symm.trans (next_after_eof h kind)
  · rw [tape_of_token h kind, tape_of_error h']
    rfl

theorem kindAt_zero (h : s.next = (.ok t, s')) : s.tape.kindAt 0 = .ok t.kind := by
  by_cases kind : t.kind = .eof
  · rw [tape_of_eof h kind, kind]
    rfl
  · rw [tape_of_token h kind]
    rfl

theorem kindAt_succ (h : s.next = (.ok t, s')) (i : Nat) :
    s.tape.kindAt (i + 1) = s'.tape.kindAt i := by
  by_cases kind : t.kind = .eof
  · rw [tape_after_eof h kind, tape_of_eof h kind]
    simp [Tape.kindAt]
  · rw [tape_of_token h kind]
    rfl

theorem kindAt_of_error (h : s.next = (.error e, s')) (i : Nat) : s.tape.kindAt i = .error e := by
  rw [tape_of_error h]
  simp [Tape.kindAt]

/-- The scanner gives the tokens one after the other, and stands at another point then. -/
inductive Emits : Scanner → List Token → Scanner → Prop where
  | nil {s : Scanner} : Emits s [] s
  | cons {s s₁ s' : Scanner} {t : Token} {ts : List Token} (next : s.next = (.ok t, s₁))
      (further : Emits s₁ ts s') : Emits s (t :: ts) s'

namespace Emits

theorem append {s₁ : Scanner} {us : List Token} (first : Emits s ts s₁) (last : Emits s₁ us s') :
    Emits s (ts ++ us) s' := by
  induction first with
  | nil => exact last
  | cons next _ ih => exact .cons next (ih last)

theorem concat {s₁ : Scanner} (h : Emits s ts s₁) (next : s₁.next = (.ok t, s')) :
    Emits s (ts ++ [t]) s' :=
  h.append (.cons next .nil)

/-- The tokens in front of a place on the tape lead there. -/
theorem of_tape {us vs : List Token} {final : Except ScanError Nat}
    (h : s.tape = ⟨us ++ vs, final⟩) : ∃ s', Emits s us s' ∧ s'.tape = ⟨vs, final⟩ := by
  induction us generalizing s with
  | nil => exact ⟨s, .nil, h⟩
  | cons u us ih =>
    cases next : s.next with
    | mk result after =>
      cases result with
      | error e => cases (tape_of_error next).symm.trans h
      | ok t =>
        by_cases kind : t.kind = .eof
        · cases (tape_of_eof next kind).symm.trans h
        · have pushed := (tape_of_token next kind).symm.trans h
          cases further : after.tape with
          | mk tokens last =>
            rw [further] at pushed
            cases pushed
            obtain ⟨s', emits, rest⟩ := ih further
            exact ⟨s', .cons next emits, rest⟩

theorem kindAt_length (h : Emits s ts s') (i : Nat) :
    s.tape.kindAt (ts.length + i) = s'.tape.kindAt i := by
  induction h with
  | nil => simp
  | @cons s s₁ s' t ts next _ ih =>
    rw [List.length_cons, Nat.add_right_comm, kindAt_succ next, ih]

theorem kindAt (h : Emits s ts s') {i : Nat} (hi : i < ts.length) :
    s.tape.kindAt i = .ok ts[i].kind := by
  induction h generalizing i with
  | nil => cases hi
  | @cons s s₁ s' t ts next _ ih =>
    cases i with
    | zero => exact kindAt_zero next
    | succ i =>
      rw [kindAt_succ next]
      exact ih (Nat.lt_of_succ_lt_succ hi)

end Emits

end Scanner

end ElTemplate
