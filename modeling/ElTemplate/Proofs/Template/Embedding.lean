import ElTemplate.Proofs.Grammar.Language
import ElTemplate.Proofs.Token.Extent
import ElTemplate.Text.Escape

/-!
# Embedded texts

Any text can be put into a template if it is escaped. The scanner reads the escaped text as one
token up to what stands behind it, and its escapes stand for the text as it was. The scanner counts
backslashes before a delimiter, while the reader of escapes looks ahead from each backslash; here
the two agree.
-/

namespace ElTemplate

open Text

namespace Lexeme

variable {w t : List Char}

/-- A brace ahead of an escaped text was ahead of the text before. -/
theorem head_escape (stop : t = [] ∨ (delimiter? t).isSome) {rest : List Char}
    (h : escape w ++ t = '\x7b' :: rest) : ∃ w', w = '\x7b' :: w' := by
  revert h
  fun_cases escape w with
  | case1 => exact nofun
  | case2 => exact nofun
  | case3 => exact nofun
  | case4 c w =>
    intro h
    obtain ⟨rfl, -⟩ := List.cons.inj h
    exact ⟨w, rfl⟩
  | case5 =>
    rintro rfl
    rcases stop with none | some
    · cases none
    · cases some

/-- No delimiter begins where an escaped text goes on. -/
theorem delimiter?_escape (stop : t = [] ∨ (delimiter? t).isSome) {c : Char}
    (dynamic : ∀ rest, c = '$' → w ≠ '\x7b' :: rest)
    (deferred : ∀ rest, c = '#' → w ≠ '\x7b' :: rest) :
    delimiter? (c :: (escape w ++ t)) = none := by
  rw [delimiter?.eq_def]
  split
  · next h =>
    obtain ⟨rfl, behind⟩ := List.cons.inj h
    obtain ⟨w', rfl⟩ := head_escape stop behind
    exact absurd rfl (dynamic w' rfl)
  · next h =>
    obtain ⟨rfl, behind⟩ := List.cons.inj h
    obtain ⟨w', rfl⟩ := head_escape stop behind
    exact absurd rfl (deferred w' rfl)
  · rfl

/-- An escaped text goes on to its end. -/
theorem textLength_escape (w : List Char) (stop : t = [] ∨ (delimiter? t).isSome) (length : Nat) :
    textLength false length (escape w ++ t) = length + (escape w).length := by
  -- Before each character of the text that is escaped, or not, no backslash is left over.
  fun_induction escape w generalizing length with
  | case1 w ih =>
    simp only [List.cons_append, textLength, if_true, Bool.not_false, Bool.not_true, ih,
      List.length_cons]
    omega
  | case2 w ih =>
    have brace : delimiter? ('\x7b' :: (escape w ++ t)) = none := rfl
    simp [textLength, brace, ih]
    omega
  | case3 w ih =>
    have brace : delimiter? ('\x7b' :: (escape w ++ t)) = none := rfl
    simp [textLength, brace, ih]
    omega
  | case4 c w slash dynamic deferred ih =>
    have plain : c ≠ '\\' := slash
    have none := delimiter?_escape stop dynamic deferred
    simp [textLength, plain, none, ih]
    omega
  | case5 =>
    rcases stop with none | some
    · subst none
      rfl
    · cases t with
      | nil => rfl
      | cons c t =>
        have plain : c ≠ '\\' := by
          rintro rfl
          cases some
        simp [textLength, plain, some]

theorem textLength_of_delimiter {cs : List Char} (h : (delimiter? cs).isSome) (length : Nat) :
    textLength false length cs = length := by
  obtain ⟨kind, start⟩ := Option.isSome_iff_exists.mp h
  rcases delimiter?_eq_some start with ⟨-, rest, rfl⟩ | ⟨-, rest, rfl⟩ <;> rfl

theorem escape_ne_nil (some : w ≠ []) : escape w ≠ [] := by
  intro none
  have same := unescape_escape w
  rw [none, unescape] at same
  exact some same.symm

/-- An escaped text is read as one text. -/
theorem stands_escape (some : w ≠ []) (stop : t = [] ∨ (delimiter? t).isSome) :
    Stands (escape w) t := by
  have length := textLength_escape w stop 0
  rw [Nat.zero_add] at length
  refine ⟨escape_ne_nil some, ?_⟩
  cases start : delimiter? (escape w ++ t) with
  | some kind =>
    have early := textLength_of_delimiter (Option.isSome_of_eq_some start) 0
    exact absurd (List.eq_nil_of_length_eq_zero (length.symm.trans early)) (escape_ne_nil some)
  | none => simp only [ofText, start, length, verbatim, List.take_left]

end Lexeme

namespace Scanner

variable {w t : List Char}

/-- Behind an escaped text the scanner gives the tokens that it gives by themselves. -/
theorem tape_escape (w : List Char) (stop : t = [] ∨ (Lexeme.delimiter? t).isSome) :
    (ofChars (escape w ++ t)).tape =
      ⟨(if w = [] then [] else [⟨.text, String.ofList (escape w), 0⟩]) ++
          ((ofChars t).tape.shift (escape w).length).tokens,
        ((ofChars t).tape.shift (escape w).length).final⟩ := by
  rw [← tape_shift]
  by_cases none : w = []
  · subst none
    rfl
  · obtain ⟨some, lexed⟩ := Lexeme.stands_escape none stop
    have first := next_of_ofText some lexed 0
    have behind : (ofChars t).shift (escape w).length = ⟨.text, t, 0 + (escape w).length⟩ := by
      rw [Nat.zero_add]
      rfl
    rw [ofChars, tape_of_token first nofun, if_neg none, behind]
    rfl

end Scanner

namespace Template

open Grammar

variable {features : FeatureSet}

/-- An escaped text compiles to itself. -/
theorem compile_escape (w : List Char) : compile features (String.ofList (escape w)) =
    .ok (.ofRoot features (.text (String.ofList (escape w))) false) := by
  have scanned := Scanner.tape_escape w (.inl rfl)
  have final : ((Scanner.ofChars []).tape.shift (escape w).length) = ⟨[], .ok (escape w).length⟩ := by
    rw [Scanner.tape_of_eof (Scanner.next_of_rest_nil rfl) rfl]
    rfl
  rw [final, List.append_nil, List.append_nil] at scanned
  have onTape : tape (String.ofList (escape w)) = _ :=
    (congrArg (fun cs => (Scanner.ofChars cs).tape) String.toList_ofList).trans scanned
  have sentence : Sentence features
      (if w = [] then [] else [⟨.text, String.ofList (escape w), 0⟩])
      (.text (String.ofList (escape w))) false := by
    by_cases none : w = []
    · subst none
      exact .empty
    · rw [if_neg none]
      exact .text rfl
  exact (compile_of_sentence onTape sentence).reaches trivial

/-- Any text can be embedded in front of a block or of nothing: escaped, it is one token of its own
that leaves the tokens behind it as they are, and by itself it compiles to a text that stands for
what was escaped. -/
theorem escape_embeds (features : FeatureSet) (w : List Char) {t : List Char}
    (behind : t = [] ∨ ['$', '\x7b'] <+: t ∨ ['#', '\x7b'] <+: t) :
    (Scanner.ofChars (escape w ++ t)).tape =
      ⟨(if w = [] then [] else [⟨.text, String.ofList (escape w), 0⟩]) ++
          ((Scanner.ofChars t).tape.shift (escape w).length).tokens,
        ((Scanner.ofChars t).tape.shift (escape w).length).final⟩ ∧
    unescape (escape w) = w ∧
    ∃ template, compile features (String.ofList (escape w)) = .ok template ∧
      template.isLiteralText ∧ template.root = .text (String.ofList (escape w)) ∧
      unescapeString (String.ofList (escape w)) = String.ofList w := by
  have stop : t = [] ∨ (Lexeme.delimiter? t).isSome := by
    refine behind.imp_right ?_
    rintro (⟨rest, rfl⟩ | ⟨rest, rfl⟩) <;> rfl
  refine ⟨Scanner.tape_escape w stop, unescape_escape w, _, compile_escape w, rfl, rfl, ?_⟩
  rw [unescapeString, String.toList_ofList, unescape_escape]

/-- A backslash before a block, embedded before another block. -/
theorem escape_embeds_block :
    ['#', '\x7b'] <+: ['#', '\x7b', 'a', '\x7d'] ∧
    (Scanner.ofChars ("\\\\\\$\x7b".toList ++ ['#', '\x7b', 'a', '\x7d'])).tape.tokens =
      [⟨.text, "\\\\\\$\x7b", 0⟩, ⟨.startDeferred, "#\x7b", 5⟩, ⟨.identifier, "a", 7⟩,
        ⟨.endEval, "\x7d", 8⟩] := by
  have ahead : ['#', '\x7b'] <+: ['#', '\x7b', 'a', '\x7d'] := by decide
  have scanned := (escape_embeds .none ['\\', '$', '\x7b'] (.inr (.inr ahead))).1
  have deferred : (Scanner.ofChars ['#', '\x7b', 'a', '\x7d']).tape = _ :=
    Scanner.tape_of_steps 4 rfl
  rw [deferred] at scanned
  exact ⟨ahead, congrArg Tape.tokens scanned⟩

end Template

end ElTemplate
