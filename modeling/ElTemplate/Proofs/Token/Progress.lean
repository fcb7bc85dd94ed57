import ElTemplate.Proofs.Number.Digits
import ElTemplate.Proofs.Text.Classes
import ElTemplate.Token.Scanner

/-!
# Scanners make progress

Every token but the one at the end of the source takes at least one character, and no lexeme stands
for the end of the source. So a scanner comes to the end, or to an error, after no more steps than
there are characters.
-/

namespace ElTemplate

namespace Lexeme

theorem le_textLength (escaped : Bool) (length : Nat) (cs : List Char) :
    length ≤ textLength escaped length cs := by
  fun_induction textLength escaped length cs with
  | case1 => exact Nat.le_refl _
  | case2 _ _ _ ih => omega
  | case3 => exact Nat.le_refl _
  | case4 _ _ _ _ _ ih => omega

theorem textLength_pos {c : Char} {cs : List Char} (h : delimiter? (c :: cs) = none) :
    0 < textLength false 0 (c :: cs) := by
  rw [textLength]
  split
  · exact le_textLength _ 1 cs
  · rw [h]
    exact le_textLength _ 1 cs

/-- The kinds of the tokens outside of blocks. -/
def textKinds : List Token.Kind := [.text, .startDynamic, .startDeferred]

theorem delimiter?_mem {cs : List Char} {kind : Token.Kind} (h : delimiter? cs = some kind) :
    kind ∈ textKinds := by
  unfold delimiter? at h
  split at h <;> cases h <;> decide

theorem ofText_pos (c : Char) (cs : List Char) : 0 < (ofText (c :: cs)).length := by
  simp only [ofText]
  split
  · exact Nat.two_pos
  · next h => exact textLength_pos h

theorem ofText_kind_mem (cs : List Char) : (ofText cs).kind ∈ textKinds := by
  simp only [ofText]
  split
  · next kind h => exact delimiter?_mem h
  · exact List.mem_cons_self

theorem ofText_kind_ne_eof (cs : List Char) : (ofText cs).kind ≠ .eof :=
  fun same => absurd (same ▸ ofText_kind_mem cs) (by decide)

/-- A number that begins with its point takes the point along: a property name does not begin with
a digit. -/
theorem namesProperty_of_digit {cs : List Char} (h : cs.head?.any Char.isDigit) :
    namesProperty cs = false := by
  cases cs with
  | nil => rfl
  | cons d rest =>
    have start : Text.isIdentifierStart d = false := Text.isIdentifierStart_of_isDigit h
    simp [namesProperty, start]

theorem numberExtent_pos {cs : List Char} (h : startsNumber cs) : 0 < (numberExtent cs).2 := by
  cases cs with
  | nil => simp [startsNumber] at h
  | cons c rest =>
    by_cases digit : c.isDigit
    · have whole : 0 < Digits.count (c :: rest) := Digits.count_pos digit
      simp only [numberExtent]
      split
      · split
        · exact whole
        · omega
      · split
        · exact whole
        · omega
    · simp only [startsNumber, digit, Bool.false_or, Bool.and_eq_true, beq_iff_eq] at h
      obtain ⟨rfl, ahead⟩ := h
      have whole : Digits.count ('.' :: rest) = 0 := by simp [Digits.count, digit]
      simp only [numberExtent, whole, List.drop_zero, namesProperty_of_digit ahead,
        Bool.false_eq_true, if_false]
      omega

/-- A number is digits, or a float that is longer than its digits. -/
theorem numberExtent_cases (cs : List Char) :
    numberExtent cs = (.integer, Digits.count cs) ∨
      ∃ n, Digits.count cs < n ∧ numberExtent cs = (.float, n) := by
  simp only [numberExtent]
  split
  · split
    · exact .inl rfl
    · exact .inr ⟨_, by omega, rfl⟩
  · split
    · exact .inl rfl
    · next exponent => exact .inr ⟨_, Nat.lt_add_of_pos_right (Nat.pos_of_ne_zero exponent), rfl⟩

theorem operator?_some {cs : List Char} {operator : List Char × Token.Kind}
    (h : operator? cs = some operator) : operator ∈ operators ∧ operator.1 <+: cs :=
  ⟨List.mem_of_find?_eq_some h, by simpa using List.find?_some h⟩

/-- A string literal takes its opening quote along with everything up to its closing one. -/
theorem stringRest_ok {quote : Char} {source content cs : List Char} {length : Nat} {l : Lexeme}
    (h : stringRest quote source content length cs = .ok l) :
    l.kind = .string ∧ length < l.length := by
  fun_induction stringRest quote source content length cs with
  | case1 => cases h
  | case2 => cases h
  | case3 _ _ _ _ _ ih =>
    obtain ⟨kind, further⟩ := ih h
    exact ⟨kind, by omega⟩
  | case4 => cases h
  | case5 =>
    cases h
    exact ⟨rfl, Nat.lt_succ_self _⟩
  | case6 _ _ _ _ _ _ ih =>
    obtain ⟨kind, further⟩ := ih h
    exact ⟨kind, by omega⟩

/-- A word is an identifier or has the kind of a reserved word. -/
theorem ofWord_mem (word : String) :
    Token.Kind.ofWord word ∈ .identifier :: Token.Kind.reservedWords.map Prod.snd := by
  rw [Token.Kind.ofWord]
  cases found : Token.Kind.reservedWords.lookup word with
  | none => exact List.mem_cons_self
  | some kind =>
    obtain ⟨before, behind, parted, -⟩ := List.lookup_eq_some_iff.mp found
    have mem : (word, kind) ∈ Token.Kind.reservedWords := by
      rw [parted]
      exact List.mem_append_right _ List.mem_cons_self
    exact List.mem_cons_of_mem _ (List.mem_map_of_mem mem)

theorem ofWord_ne {kind : Token.Kind}
    (other : kind ∉ .identifier :: Token.Kind.reservedWords.map Prod.snd) (word : String) :
    Token.Kind.ofWord word ≠ kind :=
  fun same => other (same ▸ ofWord_mem word)

/-- The forms of a lexeme inside a block. -/
inductive InBlock (c : Char) (rest : List Char) : Lexeme → Prop where
  | number (starts : startsNumber (c :: rest)) :
    InBlock c rest
      (verbatim (numberExtent (c :: rest)).1 (numberExtent (c :: rest)).2 (c :: rest))
  | operator {spelling : List Char} {kind : Token.Kind}
    (ahead : operator? (c :: rest) = some (spelling, kind)) :
    InBlock c rest (verbatim kind spelling.length (c :: rest))
  | string {l : Lexeme} (quote : c = '"' ∨ c = '\'')
    (closed : stringRest c (c :: rest) [] 1 rest = .ok l) : InBlock c rest l
  | word (start : Text.isIdentifierStart c) :
    InBlock c rest
      ⟨.ofWord (String.ofList (c :: rest.takeWhile Text.isIdentifierPart)),
        c :: rest.takeWhile Text.isIdentifierPart,
        (c :: rest.takeWhile Text.isIdentifierPart).length⟩

theorem inBlock_of_ofBlock {c : Char} {rest : List Char} {l : Lexeme}
    (h : ofBlock c rest = .ok l) : InBlock c rest l := by
  simp only [ofBlock] at h
  split at h
  · next starts =>
    cases h
    exact .number starts
  · split at h
    · next ahead =>
      cases h
      exact .operator ahead
    · split at h
      · cases h
      · split at h
        · next quote => exact .string quote h
        · split at h
          · next start =>
            cases h
            exact .word start
          · cases h

/-- The kinds of the tokens inside of blocks. -/
def blockKinds : List Token.Kind :=
  [.integer, .float, .string] ++ operators.map Prod.snd ++
    .identifier :: Token.Kind.reservedWords.map Prod.snd

theorem ofBlock_kind_mem {c : Char} {rest : List Char} {l : Lexeme}
    (h : ofBlock c rest = .ok l) : l.kind ∈ blockKinds := by
  cases inBlock_of_ofBlock h with
  | number =>
    change (numberExtent (c :: rest)).1 ∈ blockKinds
    rcases numberExtent_cases (c :: rest) with integer | ⟨n, -, float⟩
    · rw [integer]
      exact List.mem_cons_self
    · rw [float]
      exact List.mem_cons_of_mem _ List.mem_cons_self
  | @operator _ kind ahead =>
    have mem : kind ∈ operators.map Prod.snd := List.mem_map_of_mem (operator?_some ahead).1
    exact List.mem_append_left _ (List.mem_append_right _ mem)
  | string _ closed =>
    rw [(stringRest_ok closed).1]
    decide
  | word => exact List.mem_append_right _ (ofWord_mem _)

theorem ofBlock_kind_ne {c : Char} {rest : List Char} {l : Lexeme} {kind : Token.Kind}
    (h : ofBlock c rest = .ok l) (other : kind ∉ blockKinds) : l.kind ≠ kind :=
  fun same => other (same ▸ ofBlock_kind_mem h)

theorem ofBlock_length_pos {c : Char} {rest : List Char} {l : Lexeme}
    (h : ofBlock c rest = .ok l) : 0 < l.length := by
  cases inBlock_of_ofBlock h with
  | number starts => exact numberExtent_pos starts
  | operator ahead =>
    exact (by decide : ∀ operator ∈ operators, 0 < operator.1.length) _ (operator?_some ahead).1
  | string _ closed => exact Nat.zero_lt_of_lt (stringRest_ok closed).2
  | word => exact Nat.succ_pos _

theorem ofBlock_ok {c : Char} {rest : List Char} {l : Lexeme} (h : ofBlock c rest = .ok l) :
    l.kind ≠ .eof ∧ 0 < l.length :=
  ⟨ofBlock_kind_ne h (by decide), ofBlock_length_pos h⟩

end Lexeme

namespace Scanner

variable {s s' : Scanner} {t : Token}

/-- A lexeme outside of blocks is the next token. -/
theorem next_of_ofText {slice f : List Char} {kind : Token.Kind} (some : slice ≠ [])
    (lexed : Lexeme.ofText (slice ++ f) = ⟨kind, slice, slice.length⟩) (p : Nat) :
    next ⟨.text, slice ++ f, p⟩ =
      (.ok ⟨kind, String.ofList slice, p⟩, ⟨Mode.text.after kind, f, p + slice.length⟩) := by
  obtain ⟨c, cs, rfl⟩ := List.exists_cons_of_ne_nil some
  have behind : (c :: cs ++ f).drop (c :: cs).length = f := List.drop_left
  rw [List.cons_append] at lexed behind ⊢
  simp only [next, accept, lexed, behind]

section Block

variable {c : Char} {cs gap : List Char}

/-- White space inside a block is passed over. -/
theorem next_blanks (blank : ∀ c ∈ gap, Text.isBlank c) (cs : List Char) (p : Nat) :
    next ⟨.block, gap ++ cs, p⟩ = next ⟨.block, cs, p + gap.length⟩ := by
  have same : skipBlanks ⟨.block, gap ++ cs, p⟩ = skipBlanks ⟨.block, cs, p + gap.length⟩ := by
    simp only [skipBlanks, List.dropWhile_append_of_pos blank, List.takeWhile_append_of_pos blank,
      List.length_append, Nat.add_assoc]
  simp only [next, same]

theorem skipBlanks_of_nonblank (nonblank : Text.isBlank c = false) (p : Nat) :
    skipBlanks ⟨.block, c :: cs, p⟩ = ⟨.block, c :: cs, p⟩ := by
  simp [skipBlanks, nonblank]

/-- A lexeme inside a block is the next token. -/
theorem next_of_ofBlock {l : Lexeme} (nonblank : Text.isBlank c = false)
    (lexed : Lexeme.ofBlock c cs = .ok l) (p : Nat) : next ⟨.block, c :: cs, p⟩ =
      (.ok ⟨l.kind, String.ofList l.image, p⟩,
        ⟨Mode.block.after l.kind, (c :: cs).drop l.length, p + l.length⟩) := by
  simp only [next, skipBlanks_of_nonblank nonblank, lexed]
  rfl

theorem next_of_ofBlock_error {fault : ScanFault} (nonblank : Text.isBlank c = false)
    (failed : Lexeme.ofBlock c cs = .error fault) (p : Nat) :
    next ⟨.block, c :: cs, p⟩ = (.error ⟨p, fault⟩, ⟨.block, c :: cs, p⟩) := by
  simp only [next, skipBlanks_of_nonblank nonblank, failed]

end Block

/-- A step gives the token at the end of the source exactly when nothing is ahead; every other
token leaves less ahead. -/
theorem next_ok (h : s.next = (.ok t, s')) :
    (t = s'.endOfInput ∧ s'.rest = []) ∨ (t.kind ≠ .eof ∧ s'.rest.length < s.rest.length) := by
  obtain ⟨mode, rest, position⟩ := s
  cases mode with
  | text =>
    cases rest with
    | nil =>
      cases h
      exact .inl ⟨rfl, rfl⟩
    | cons c cs =>
      cases h
      have consumed := Lexeme.ofText_pos c cs
      refine .inr ⟨Lexeme.ofText_kind_ne_eof _, ?_⟩
      simp only [List.length_drop, List.length_cons]
      omega
  | block =>
    simp only [next] at h
    have skipped : (skipBlanks ⟨.block, rest, position⟩).rest.length ≤ rest.length :=
      (List.dropWhile_suffix _).length_le
    split at h
    · next blank =>
      cases h
      exact .inl ⟨rfl, blank⟩
    · next c cs ahead =>
      split at h
      · next l lexeme =>
        cases h
        obtain ⟨kind, consumed⟩ := Lexeme.ofBlock_ok lexeme
        refine .inr ⟨kind, ?_⟩
        simp only [accept, ahead, List.length_drop, List.length_cons] at skipped ⊢
        omega
      · cases h

theorem next_rest_lt (h : s.next = (.ok t, s')) (kind : t.kind ≠ .eof) :
    s'.rest.length < s.rest.length := by
  rcases next_ok h with ⟨rfl, -⟩ | ⟨-, less⟩
  · exact absurd rfl kind
  · exact less

/-- After the end of the source every step gives the same token again. -/
theorem next_of_rest_nil (h : s.rest = []) : s.next = (.ok s.endOfInput, s) := by
  obtain ⟨mode, rest, position⟩ := s
  cases h
  cases mode <;> rfl

theorem next_after_eof (h : s.next = (.ok t, s')) (kind : t.kind = .eof) :
    s'.next = (.ok t, s') := by
  rcases next_ok h with ⟨rfl, finished⟩ | ⟨further, -⟩
  · exact next_of_rest_nil finished
  · exact absurd kind further

end Scanner

end ElTemplate
