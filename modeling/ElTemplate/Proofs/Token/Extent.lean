import ElTemplate.Proofs.Token.Tiling

/-!
# Where tokens stand

A step of a scanner moves it on by exactly the characters that it takes, and where the scanner starts
to count does not matter.
-/

namespace ElTemplate

namespace Scanner

variable {s s' : Scanner} {t : Token} {ts : List Token} {e : ScanError}

/-- A step moves on by the characters that it takes. -/
theorem next_consumes (h : s.next = (.ok t, s')) :
    ∃ taken, s.rest = taken ++ s'.rest ∧ s'.position = s.position + taken.length := by
  rcases moves_or_halts s with ⟨tile, s₁, moves⟩ | ⟨gap, last, s₁, halts⟩
  · obtain rfl : s₁ = s' := congrArg Prod.snd (moves.next.symm.trans h)
    refine ⟨tile.gap ++ tile.slice, by rw [List.append_assoc, moves.parted], ?_⟩
    rw [moves.position, Tile.stop, moves.fits.position, List.length_append, Nat.add_assoc]
  · obtain rfl : s₁ = s' := congrArg Prod.snd (halts.next.symm.trans h)
    exact ⟨gap, halts.parted, halts.position⟩

theorem Emits.consumes (h : Emits s ts s') :
    ∃ taken, s.rest = taken ++ s'.rest ∧ s'.position = s.position + taken.length := by
  induction h with
  | nil => exact ⟨[], rfl, rfl⟩
  | cons next _ ih =>
    obtain ⟨first, parted, moved⟩ := next_consumes next
    obtain ⟨further, parted', moved'⟩ := ih
    refine ⟨first ++ further, ?_, ?_⟩
    · rw [parted, parted', List.append_assoc]
    · rw [moved', moved, List.length_append, Nat.add_assoc]

end Scanner

/-- The token with so many characters more before it. -/
def Token.shift (n : Nat) (t : Token) : Token :=
  { t with position := n + t.position }

def ScanError.shift (n : Nat) (e : ScanError) : ScanError :=
  { e with position := n + e.position }

def Scanner.shift (n : Nat) (s : Scanner) : Scanner :=
  { s with position := n + s.position }

/-- The tape with so many characters more before it. -/
def Tape.shift (n : Nat) (tape : Tape) : Tape where
  tokens := tape.tokens.map (Token.shift n)
  final := match tape.final with
    | .ok stop => .ok (n + stop)
    | .error e => .error (e.shift n)

namespace Scanner

variable {s s' : Scanner} {t : Token} {e : ScanError} (n : Nat)

theorem skipBlanks_shift (s : Scanner) : (s.shift n).skipBlanks = s.skipBlanks.shift n := by
  simp only [skipBlanks, shift, Nat.add_assoc]

theorem next_shift (s : Scanner) : (s.shift n).next =
    match s.next with
    | (.ok t, s') => (.ok (t.shift n), s'.shift n)
    | (.error e, s') => (.error (e.shift n), s'.shift n) := by
  obtain ⟨mode, rest, position⟩ := s
  cases mode with
  | text =>
    cases rest with
    | nil => rfl
    | cons c cs => simp only [next, shift, accept, Token.shift, Nat.add_assoc]
  | block =>
    have skipped := skipBlanks_shift n ⟨.block, rest, position⟩
    simp only [next, shift] at skipped ⊢
    rw [skipped]
    generalize skipBlanks ⟨.block, rest, position⟩ = s
    obtain ⟨mode, rest, position⟩ := s
    cases rest with
    | nil => rfl
    | cons c cs =>
      cases lexed : Lexeme.ofBlock c cs with
      | error fault => simp only [lexed, ScanError.shift]
      | ok l => simp only [lexed, accept, Token.shift, Nat.add_assoc]

/-- Where the scanner starts to count does not matter. -/
theorem tape_shift (s : Scanner) : (s.shift n).tape = s.tape.shift n := by
  induction s using tape.induct with
  | case1 s e s' next =>
    have shifted := next_shift n s
    rw [next] at shifted
    rw [tape_of_error next, tape_of_error shifted]
    rfl
  | case2 s t s' next kind =>
    have shifted := next_shift n s
    rw [next] at shifted
    rw [tape_of_eof next kind, tape_of_eof shifted kind]
    rfl
  | case3 s t s' next kind ih =>
    have shifted := next_shift n s
    rw [next] at shifted
    rw [tape_of_token next kind, tape_of_token shifted kind, ih]
    rfl

end Scanner

end ElTemplate
