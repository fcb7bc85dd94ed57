import ElTemplate.Proofs.Token.Respell

/-!
# String literals

Inside a block a quote begins a string, which goes on up to the next quote of its kind that is not
escaped. The canonical spelling of a string is one of the texts that give it back. A quote that
begins no string is an error there: a backslash before a character that takes none is reported if
one comes first, and otherwise all that is left of the source.
-/

namespace ElTemplate

namespace Lexical

/-- A string that is open before the text ends in it. -/
def Closes (quote : Char) (cs : List Char) : Prop :=
  ∃ body content f, cs = body ++ quote :: f ∧ Quoted quote body content

/-- In a string that is open before the text, a backslash stands before this character, which is
neither a backslash nor a quote, and nothing is wrong up to there. -/
def Offends (quote : Char) (cs : List Char) (c : Char) : Prop :=
  ∃ body content f, cs = body ++ '\\' :: c :: f ∧ Quoted quote body content ∧
    ¬ (c = '\\' ∨ c = '\'' ∨ c = '"')

variable {quote c d : Char} {cs : List Char}

theorem Offends.plain (h : Offends quote cs c) (slash : d ≠ '\\') (other : d ≠ quote) :
    Offends quote (d :: cs) c := by
  obtain ⟨body, content, f, rfl, quoted, offending⟩ := h
  exact ⟨d :: body, d :: content, f, rfl, .plain slash other quoted, offending⟩

theorem Offends.escaped (h : Offends quote cs c) (escapable : d = '\\' ∨ d = '\'' ∨ d = '"') :
    Offends quote ('\\' :: d :: cs) c := by
  obtain ⟨body, content, f, rfl, quoted, offending⟩ := h
  exact ⟨'\\' :: d :: body, d :: content, f, rfl, .escaped escapable quoted, offending⟩

end Lexical

namespace Lexeme

open Lexical

variable {quote c : Char} {source content body text cs : List Char} {length : Nat}
  {fault : ScanFault}

theorem stringRest_of_offends (h : Offends quote cs c) :
    stringRest quote source content length cs = .error (.invalidEscape c) := by
  obtain ⟨body, text, f, rfl, quoted, offending⟩ := h
  have refused : ¬ isEscapable c := fun escapable => offending (isEscapable_iff.mp escapable)
  rw [stringRest_body quoted, stringRest.eq_def]
  simp only [if_true, if_neg refused]

/-- A backslash at the very end escapes nothing and is no offence. -/
theorem stringRest_backslash (h : Quoted quote body text) :
    stringRest quote source content length (body ++ ['\\']) =
      .error (.unterminatedString (String.ofList source)) := by
  rw [stringRest_body h, stringRest.eq_def]
  simp only [if_true]

/-- What is wrong with a string is its first offending pair, or that it is never closed. -/
theorem fault_of_stringRest (h : stringRest quote source content length cs = .error fault) :
    (∃ c, fault = .invalidEscape c ∧ Offends quote cs c) ∨
      fault = .unterminatedString (String.ofList source) := by
  fun_induction stringRest quote source content length cs with
  | case1 =>
    cases h
    exact .inr rfl
  | case2 =>
    cases h
    exact .inr rfl
  | case3 content length c rest escapable ih =>
    rcases ih h with ⟨offender, same, offends⟩ | unterminated
    · exact .inl ⟨offender, same, offends.escaped (isEscapable_iff.mp escapable)⟩
    · exact .inr unterminated
  | case4 content length c rest refused =>
    cases h
    exact .inl ⟨c, rfl, [], [], rest, rfl, .nil, fun escapable =>
      refused (isEscapable_iff.mpr escapable)⟩
  | case5 => cases h
  | case6 content length c rest slash plain ih =>
    rcases ih h with ⟨offender, same, offends⟩ | unterminated
    · exact .inl ⟨offender, same, offends.plain slash plain⟩
    · exact .inr unterminated

/-- A string that never ends is an error. -/
theorem exists_fault_of_not_closes (h : ¬ Closes quote cs) :
    ∃ fault, stringRest quote source content length cs = .error fault := by
  cases outcome : stringRest quote source content length cs with
  | error fault => exact ⟨fault, rfl⟩
  | ok l =>
    obtain ⟨body, text, f, rfl, -, quoted, -⟩ := quoted_of_stringRest outcome
    exact absurd ⟨body, text, f, rfl, quoted⟩ h

end Lexeme

namespace Scanner

open Lexical

variable {quote : Char} {body content cs : List Char} {fault : ScanFault} {p : Nat}

theorem nonblank_quote (hquote : quote = '"' ∨ quote = '\'') : Text.isBlank quote = false := by
  rcases hquote with rfl | rfl <;> decide

theorem next_of_quoted (hquote : quote = '"' ∨ quote = '\'') (h : Quoted quote body content)
    (f : List Char) (p : Nat) :
    next ⟨.block, quote :: (body ++ quote :: f), p⟩ =
      (.ok ⟨.string, String.ofList content, p⟩, ⟨.block, f, p + (body.length + 2)⟩) := by
  have behind : (quote :: (body ++ quote :: f)).drop (body.length + 2) = f := by
    rw [List.drop_succ_cons, ← List.drop_drop, List.drop_left, List.drop_one, List.tail_cons]
  rw [next_of_ofBlock (nonblank_quote hquote) (Lexeme.ofBlock_quoted hquote h), behind]
  rfl

/-- The canonical spelling of a string is read as the string. -/
theorem next_of_spelling (w : String) (f : List Char) (p : Nat) :
    next ⟨.block, (Literal.string w).spelling.toList ++ f, p⟩ =
      (.ok ⟨.string, w, p⟩, ⟨.block, f, p + (Literal.string w).spelling.length⟩) := by
  have parted : (Literal.string w).spelling.toList ++ f =
      '\'' :: (Literal.escapeQuoted w.toList ++ '\'' :: f) := by
    rw [Literal.spelling, String.toList_ofList, Literal.quote, List.cons_append, List.append_assoc,
      List.singleton_append]
  have counted : (Literal.string w).spelling.length =
      (Literal.escapeQuoted w.toList).length + 2 := by
    rw [Literal.spelling, String.length_ofList, Literal.quote, List.length_cons,
      List.length_append, List.length_singleton]
  rw [parted, counted, next_of_quoted (.inr rfl) (Lexeme.quoted_escapeQuoted w.toList),
    String.ofList_toList]

theorem next_of_stringRest (hquote : quote = '"' ∨ quote = '\'')
    (h : Lexeme.stringRest quote (quote :: cs) [] 1 cs = .error fault) (p : Nat) :
    next ⟨.block, quote :: cs, p⟩ = (.error ⟨p, fault⟩, ⟨.block, quote :: cs, p⟩) :=
  next_of_ofBlock_error (nonblank_quote hquote) ((Lexeme.ofBlock_of_quote hquote cs).trans h) p

/-- What a quote begins inside a block. The canonical spelling of a string is read as that string,
and a body between two quotes as its content, with nothing read of what follows. Any other text
behind a quote is an error at the quote: an invalid escape exactly if the string has an offending
pair before it ends, which is the fragment reported, and otherwise an unterminated string, reported
with all that is left of the source. A backslash that ends the source makes no pair. -/
theorem next_quote {quote : Char} (hquote : quote = '"' ∨ quote = '\'') (p : Nat) :
    (∀ w f, next ⟨.block, (Literal.string w).spelling.toList ++ f, p⟩ =
      (.ok ⟨.string, w, p⟩, ⟨.block, f, p + (Literal.string w).spelling.length⟩)) ∧
    (∀ body content f, Quoted quote body content →
      next ⟨.block, quote :: (body ++ quote :: f), p⟩ =
        (.ok ⟨.string, String.ofList content, p⟩, ⟨.block, f, p + (body.length + 2)⟩)) ∧
    (∀ cs, ¬ Closes quote cs →
      ∃ e, next ⟨.block, quote :: cs, p⟩ = (.error e, ⟨.block, quote :: cs, p⟩) ∧
        e.position = p ∧
        (e.fault.detail = "invalid escape sequence" ↔ ∃ c, Offends quote cs c) ∧
        (∀ c, Offends quote cs c → e.fault.fragment = String.ofList ['\\', c]) ∧
        ((∀ c, ¬ Offends quote cs c) →
          e.fault.detail = "unterminated string" ∧
            e.fault.fragment = String.ofList (quote :: cs))) ∧
    ∀ body content, Quoted quote body content →
      next ⟨.block, quote :: (body ++ ['\\']), p⟩ =
        (.error ⟨p, .unterminatedString (String.ofList (quote :: (body ++ ['\\'])))⟩,
          ⟨.block, quote :: (body ++ ['\\']), p⟩) := by
  refine ⟨fun w f => next_of_spelling w f p, fun body content f quoted =>
    next_of_quoted hquote quoted f p, ?_, fun body content quoted =>
    next_of_stringRest hquote (Lexeme.stringRest_backslash quoted) p⟩
  intro cs unclosed
  obtain ⟨fault, failed⟩ : ∃ fault, Lexeme.stringRest quote (quote :: cs) [] 1 cs = .error fault :=
    Lexeme.exists_fault_of_not_closes unclosed
  refine ⟨⟨p, fault⟩, next_of_stringRest hquote failed p, rfl, ?_, ?_, ?_⟩
  · constructor
    · intro invalid
      rcases Lexeme.fault_of_stringRest failed with ⟨c, -, offends⟩ | rfl
      · exact ⟨c, offends⟩
      · exact absurd invalid (by decide : "unterminated string" ≠ "invalid escape sequence")
    · rintro ⟨c, offends⟩
      cases failed.symm.trans (Lexeme.stringRest_of_offends offends)
      rfl
  · intro c offends
    cases failed.symm.trans (Lexeme.stringRest_of_offends offends)
    rfl
  · intro sound
    rcases Lexeme.fault_of_stringRest failed with ⟨c, -, offends⟩ | rfl
    · exact absurd offends (sound c)
    · exact ⟨rfl, rfl⟩

/-- A string with an offending pair, and the same quote around a body with two escapes. -/
theorem next_quote_single : ¬ Closes '\'' ['a', '\\', 'q', '\''] ∧
    (∃ e, next ⟨.block, '\'' :: ['a', '\\', 'q', '\''], 0⟩ =
        (.error e, ⟨.block, '\'' :: ['a', '\\', 'q', '\''], 0⟩) ∧
      e.position = 0 ∧ e.fault.detail = "invalid escape sequence" ∧ e.fault.fragment = "\\q") ∧
    Quoted '\'' ['\\', '\'', '"', '\\', '\\'] ['\'', '"', '\\'] ∧
    next ⟨.block, '\'' :: (['\\', '\'', '"', '\\', '\\'] ++ '\'' :: ['+']), 0⟩ =
      (.ok ⟨.string, "'\"\\", 0⟩, ⟨.block, ['+'], 7⟩) := by
  have unclosed : ¬ Closes '\'' ['a', '\\', 'q', '\''] := by
    rintro ⟨body, content, f, parted, quoted⟩
    have closed : Lexeme.stringRest '\'' [] [] 1 (body ++ '\'' :: f) = .ok _ :=
      Lexeme.stringRest_quoted (by decide) quoted
    rw [← parted] at closed
    cases closed
  have offends : Offends '\'' ['a', '\\', 'q', '\''] 'q' :=
    ⟨['a'], ['a'], ['\''], rfl, .plain (by decide) (by decide) .nil, by decide⟩
  have quoted : Quoted '\'' ['\\', '\'', '"', '\\', '\\'] ['\'', '"', '\\'] :=
    .escaped (by decide) (.plain (by decide) (by decide) (.escaped (by decide) .nil))
  obtain ⟨-, closed, failed, -⟩ := next_quote (Or.inr rfl : '\'' = '"' ∨ '\'' = '\'') 0
  obtain ⟨e, scanned, position, detail, fragment, -⟩ := failed _ unclosed
  exact ⟨unclosed, ⟨e, scanned, position, detail.mpr ⟨'q', offends⟩, fragment 'q' offends⟩, quoted,
    closed _ _ ['+'] quoted⟩

end Scanner

end ElTemplate
