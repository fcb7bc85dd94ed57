import ElTemplate.Proofs.Yaml.Line
import ElTemplate.Yaml.Block

/-!
# Words as keys and values

A word of small letters, digits and underscores is a plain scalar as it stands: nothing in it ends a
scalar. With a colon behind it, it is a key, and without one it is none. A scalar in an indented
block ends where a line stands at the margin, whatever comments and blank lines are before that.
-/

namespace ElTemplate.Yaml

/-- Whether the character is a digit, a small letter or an underscore. -/
def isWordChar (c : Char) : Bool :=
  let n := c.toNat
  (0x30 ≤ n && n ≤ 0x39) || (0x61 ≤ n && n ≤ 0x7A) || n == 0x5F

/-- A non-empty text of digits, small letters and underscores. -/
structure IsWord (cs : List Char) : Prop where
  ne_nil : cs ≠ []
  all : ∀ c ∈ cs, isWordChar c

/-- A line at the margin that begins with a word or a dash. -/
structure IsMargin (l : Line) : Prop where
  indent : l.indent = 0
  head : ∃ c rest, l.text = c :: rest ∧ (isWordChar c ∨ c = '-')

variable {cs rest : List Char} {c d : Char} {l : Line} {ls es : List Line} {low : Nat}

theorem IsWord.exists_cons (h : IsWord cs) : ∃ c rest, cs = c :: rest ∧ isWordChar c := by
  obtain ⟨c, rest, rfl⟩ := List.exists_cons_of_ne_nil h.ne_nil
  exact ⟨c, rest, rfl, h.all c List.mem_cons_self⟩

theorem isWord_of_all (some : cs ≠ []) (all : cs.all isWordChar) : IsWord cs :=
  ⟨some, List.all_eq_true.mp all⟩

section Characters

theorem ascii_of_isWordChar (h : isWordChar c) : 0x20 ≤ c.toNat ∧ c.toNat ≤ 0x7E := by
  simp only [isWordChar, Bool.or_eq_true, Bool.and_eq_true, decide_eq_true_eq, beq_iff_eq] at h
  omega

theorem isWordChar_of_isDigit (h : c.isDigit) : isWordChar c := by
  have range : 0x30 ≤ c.toNat ∧ c.toNat ≤ 0x39 := Char.isDigit_iff_toNat.mp h
  simp [isWordChar, range]

/-- A word character separates nothing and has no meaning of its own. -/
theorem plain_of_isWordChar (h : isWordChar c) : isSpace c = false ∧ isIndicator c = false :=
  Text.ascii_of_forall
    (p := fun c => isWordChar c → isSpace c = false ∧ isIndicator c = false)
    (by decide) (by have := ascii_of_isWordChar h; omega) h

theorem ne_of_isWordChar (h : isWordChar c) (sign : isIndicator d) : c ≠ d := by
  rintro rfl
  rw [(plain_of_isWordChar h).2] at sign
  cases sign

theorem IsWord.head?_append (h : IsWord cs) (rest : List Char) :
    (cs ++ rest).head? ≠ some ' ' := by
  obtain ⟨c, cs, rfl, first⟩ := h.exists_cons
  rintro ⟨⟩
  exact absurd first (by decide)

theorem IsWord.isAscii (h : IsWord cs) : IsAscii cs :=
  fun c member => ascii_of_isWordChar (h.all c member)

end Characters

section Scalars

/-- Nothing ends a plain scalar within a word. -/
theorem plainSpan_word (all : ∀ c ∈ cs, isWordChar c)
    (stop : ∀ afterSpace, plainSpan false afterSpace rest = ([], rest)) (afterSpace : Bool) :
    plainSpan false afterSpace (cs ++ rest) = (cs, rest) := by
  induction cs generalizing afterSpace with
  | nil => exact stop afterSpace
  | cons c cs ih =>
    obtain ⟨word, all⟩ := List.forall_mem_cons.mp all
    have comment : c ≠ '#' := ne_of_isWordChar word (by decide)
    have colon : c ≠ ':' := ne_of_isWordChar word (by decide)
    rw [List.cons_append, plainSpan, ih all]
    simp [comment, colon]

theorem plainSpan_colon (space : atSpace rest) (afterSpace : Bool) :
    plainSpan false afterSpace (':' :: rest) = ([], ':' :: rest) := by
  rw [plainSpan]
  simp [endsAtColon, space]

theorem trimEnd_word (all : ∀ c ∈ cs, isWordChar c) : trimEnd cs = cs := by
  rw [trimEnd]
  cases reversed : cs.reverse with
  | nil => exact (List.reverse_eq_nil_iff.mp reversed).symm
  | cons c rest =>
    have last : c ∈ cs := List.mem_reverse.mp (reversed ▸ List.mem_cons_self)
    have other : ¬ isSpace c := by simp [(plain_of_isWordChar (all c last)).1]
    rw [List.dropWhile_cons_of_neg other, ← reversed, List.reverse_reverse]

theorem startsPlain_word (word : IsWord cs) (rest : List Char) :
    startsPlain false (cs ++ rest) := by
  obtain ⟨c, cs, rfl, first⟩ := word.exists_cons
  simp [startsPlain, plain_of_isWordChar first]

/-- A word with nothing behind it is one span. -/
theorem plainSpan_whole (word : IsWord cs) : plainSpan false false cs = (cs, []) := by
  have ended (afterSpace : Bool) : plainSpan false afterSpace [] = ([], []) := rfl
  simpa using plainSpan_word word.all ended false

/-- A word with a colon behind it is a key. -/
theorem key?_word (word : IsWord cs) (short : cs.length ≤ maxKeyLength) (space : atSpace rest) :
    key? (cs ++ ':' :: rest) = some (.plain cs, rest) := by
  have span := plainSpan_word word.all (plainSpan_colon space) false
  have near : cs.length + (rest.length + 1) ≤ maxKeyLength + 1 + rest.length := by omega
  simp [key?, startsPlain_word word, span, trimEnd_word word.all, Cursor.colon?,
    isSpace, near, space]

/-- A word by itself is none. -/
theorem key?_of_word (word : IsWord cs) : key? cs = none := by
  have start := startsPlain_word word []
  have span := plainSpan_whole word
  rw [List.append_nil] at start
  simp [key?, start, span, Cursor.colon?]

/-- A line at the margin begins with what is neither white space nor a comment. -/
theorem IsMargin.head_plain (h : IsMargin l) : ∃ c rest, l.text = c :: rest ∧ c ≠ '\t' ∧ c ≠ '#' ∧
    isSpace c = false := by
  obtain ⟨c, rest, text, word | rfl⟩ := h.head
  · have solid := (plain_of_isWordChar word).1
    refine ⟨c, rest, text, ?_, ne_of_isWordChar word (by decide), solid⟩
    rintro rfl
    cases solid
  · exact ⟨'-', rest, text, by decide, by decide, by decide⟩

theorem IsMargin.isIgnorable (h : IsMargin l) : l.isIgnorable = false := by
  obtain ⟨c, rest, text, -, comment, -⟩ := h.head_plain
  simpa [Line.isIgnorable, text] using comment

/-- The scalar ends before the line at the margin. -/
theorem plainLines_margin (margin : ∀ l ∈ es.head?, IsMargin l) (below : essential ls = es)
    (content : List Char) :
    ∃ ls', plainLines 1 content ls = some (.plain content, ls') ∧ essential ls' = es := by
  induction ls with
  | nil => exact ⟨[], rfl, below⟩
  | cons l ls ih =>
    cases ignorable : l.isIgnorable with
    | true =>
      rw [essential_cons_of_ignorable ignorable] at below
      obtain ⟨indent, text⟩ := l
      cases text with
      | nil =>
        obtain ⟨ls', read, rest⟩ := ih below
        exact ⟨ls', by simpa [plainLines, Line.isTabbed] using read, rest⟩
      | cons c text =>
        obtain rfl : c = '#' := by simpa [Line.isIgnorable] using ignorable
        exact ⟨ls, by simp [plainLines, Line.isTabbed, isSpace], below⟩
    | false =>
      rw [essential_cons_of_not ignorable] at below
      have here : IsMargin l := margin l (by rw [← below]; rfl)
      obtain ⟨c, rest, text, tab, comment, space⟩ := here.head_plain
      refine ⟨l :: ls, ?_, (essential_cons_of_not ignorable ls).trans below⟩
      have solid : l.text.dropWhile isSpace = c :: rest := by
        rw [text]
        exact List.dropWhile_cons_of_neg (by simp [space])
      rw [plainLines, solid, Line.isTabbed, text, here.indent]
      simp [tab, comment]

/-- A word is read as a scalar, up to the line at the margin. -/
theorem inlineNode_word (word : IsWord cs) (margin : ∀ l ∈ es.head?, IsMargin l)
    (below : essential ls = es) :
    ∃ ls', inlineNode 1 ⟨cs, ls⟩ = some (.plain cs, ls') ∧ essential ls' = es := by
  have start := startsPlain_word word []
  have span := plainSpan_whole word
  rw [List.append_nil] at start
  obtain ⟨ls', read, rest⟩ := plainLines_margin margin below cs
  refine ⟨ls', ?_, rest⟩
  obtain ⟨c, cs, rfl, first⟩ := word.exists_cons
  have literal : c ≠ '|' := ne_of_isWordChar first (by decide)
  have folded : c ≠ '>' := ne_of_isWordChar first (by decide)
  rw [inlineNode]
  split
  · next same => exact absurd (List.cons.inj same).1 literal
  · next same => exact absurd (List.cons.inj same).1 folded
  · simp [start, plainScalar, span, trimEnd_word word.all, read]

theorem flowNode_brackets (steps : Nat) (ls : List Line) :
    flowNode (steps + 2) low ⟨['[', ']'], ls⟩ = some (.sequence [], ⟨[], ls⟩) := by
  have skipped : Cursor.skip ⟨[']'], ls⟩ = ⟨[']'], ls⟩ := by cases ls <;> rfl
  rw [flowNode]
  change flowItems (steps + 1) low [] (Cursor.skip ⟨[']'], ls⟩) = _
  rw [skipped, flowItems]
  rfl

/-- Closed brackets are read as a list without items. -/
theorem inlineNode_brackets (ls : List Line) :
    inlineNode low ⟨['[', ']'], ls⟩ = some (.sequence [], ls) := by
  have room : ∃ steps, 2 * Cursor.size ⟨['[', ']'], ls⟩ = steps + 2 := ⟨2 * _, rfl⟩
  obtain ⟨steps, room⟩ := room
  have flow : startsPlain false ['[', ']'] = false := by decide
  simp [inlineNode, flow, room, flowNode_brackets, Cursor.finishLine]

end Scalars

end ElTemplate.Yaml
