import ElTemplate.Proofs.Token.Extent
import ElTemplate.Proofs.Token.Scans
import Mathlib.Data.List.Find

/-!
# Texts that end with a block

No token but a text goes on behind a closing brace. So if a source ends with a block, then what is
written behind it changes none of its tokens, and is scanned like a source of its own.
-/

namespace ElTemplate

namespace Lexeme

open Text

variable {c : Char} {xs cs : List Char} {l : Lexeme} (f : List Char)

section Brace

variable {p : Char → Bool} (stops : p '\x7d' = false)

include stops

theorem takeWhile_brace (xs : List Char) : (xs ++ '\x7d' :: f).takeWhile p = xs.takeWhile p := by
  induction xs with
  | nil => simp [stops]
  | cons x xs ih => simp only [List.cons_append, List.takeWhile_cons, ih]

theorem dropWhile_brace (xs : List Char) :
    (xs ++ '\x7d' :: f).dropWhile p = xs.dropWhile p ++ '\x7d' :: f := by
  induction xs with
  | nil => simp [stops]
  | cons x xs ih =>
    simp only [List.cons_append, List.dropWhile_cons, ih]
    split <;> rfl

theorem head?_brace (xs : List Char) : (xs ++ '\x7d' :: f).head?.any p = xs.head?.any p := by
  cases xs with
  | nil => simp [stops]
  | cons x xs => rfl

end Brace

theorem count_brace (xs : List Char) : Digits.count (xs ++ '\x7d' :: f) = Digits.count xs := by
  rw [Digits.count, takeWhile_brace f rfl, Digits.count]

theorem exponentLength_brace (xs : List Char) :
    exponentLength (xs ++ '\x7d' :: f) = exponentLength xs := by
  match xs with
  | [] => rfl
  | [mark] => simp [exponentLength, Digits.count]
  | mark :: sign :: digits =>
    have short := count_brace f digits
    have long := count_brace f (sign :: digits)
    simp only [List.cons_append] at long ⊢
    simp only [exponentLength, short, long]

theorem namesProperty_brace (xs : List Char) :
    namesProperty (xs ++ '\x7d' :: f) = namesProperty xs := by
  have close : isIdentifierStart '\x7d' = false := by decide
  rw [namesProperty, exponentLength_brace, head?_brace f close, namesProperty]

theorem numberExtent_brace (xs : List Char) :
    numberExtent (xs ++ '\x7d' :: f) = numberExtent xs := by
  obtain ⟨ds, rest, rfl, digits, ends⟩ := Digits.exists_run xs
  by_cases point : ∃ tail, rest = '.' :: tail
  · obtain ⟨tail, rfl⟩ := point
    obtain ⟨fs, suffix, rfl, fraction, further⟩ := Digits.exists_run tail
    have further' := (head?_brace f rfl suffix).trans further
    have named := namesProperty_brace f (fs ++ suffix)
    rw [List.append_assoc] at named
    rw [List.append_assoc, List.cons_append, List.append_assoc,
      numberExtent_pointed digits fraction further', numberExtent_pointed digits fraction further,
      named, exponentLength_brace]
  · have pointless (tail : List Char) : rest ≠ '.' :: tail := fun h => point ⟨tail, h⟩
    have ends' := (head?_brace f rfl rest).trans ends
    have pointless' (tail : List Char) : rest ++ '\x7d' :: f ≠ '.' :: tail := by
      cases rest with
      | nil => exact fun h => absurd (List.cons.inj h).1 (by decide)
      | cons c cs =>
        intro h
        exact pointless cs (by rw [(List.cons.inj h).1])
    rw [List.append_assoc, numberExtent_whole digits ends' pointless',
      numberExtent_whole digits ends pointless, exponentLength_brace]

theorem startsNumber_brace (c : Char) (xs : List Char) :
    startsNumber (c :: (xs ++ '\x7d' :: f)) = startsNumber (c :: xs) := by
  rw [startsNumber, head?_brace f rfl, startsNumber]

/-- Two characters decide which operator is ahead. -/
theorem operator?_congr {cs cs' : List Char} (same : cs.take 2 = cs'.take 2) :
    operator? cs = operator? cs' := by
  have short : ∀ operator ∈ operators, operator.1.length ≤ 2 := by decide
  have two : ∀ operator ∈ operators, ∀ cs : List Char,
      operator.1.isPrefixOf cs = operator.1.isPrefixOf (cs.take 2) := by
    intro operator member cs
    rw [Bool.eq_iff_iff, List.isPrefixOf_iff_prefix, List.isPrefixOf_iff_prefix,
      List.prefix_take_iff, and_iff_left (short operator member)]
  apply List.find?_congr
  intro operator member
  rw [two operator member cs, two operator member cs', same]

/-- What stands behind a closed string does not matter to it. -/
theorem stringRest_append {quote : Char} {source content : List Char} {length : Nat}
    (source' : List Char) (h : stringRest quote source content length cs = .ok l) :
    stringRest quote source' content length (cs ++ f) = .ok l := by
  obtain ⟨body, text, rest, rfl, other, quoted, rfl⟩ := quoted_of_stringRest h
  rw [List.append_assoc, List.cons_append]
  exact stringRest_quoted other quoted

theorem verbatim_append {kind : Token.Kind} {length : Nat} (h : length ≤ cs.length) :
    verbatim kind length (cs ++ f) = verbatim kind length cs := by
  rw [verbatim, List.take_append_of_le_length h, verbatim]

/-- An operator is its own image. -/
theorem verbatim_operator {operator : List Char × Token.Kind}
    (h : operator? cs = some operator) :
    verbatim operator.2 operator.1.length cs = ⟨operator.2, operator.1, operator.1.length⟩ := by
  rw [verbatim, ← List.prefix_iff_eq_take.mp (operator?_some h).2]

/-- What stands behind a closing brace does not matter to the token before it. -/
theorem ofBlock_brace (h : ofBlock c (xs ++ ['\x7d']) = .ok l) :
    ofBlock c (xs ++ '\x7d' :: f) = .ok l := by
  have begins : startsNumber (c :: (xs ++ '\x7d' :: f)) = startsNumber (c :: (xs ++ ['\x7d'])) := by
    rw [startsNumber_brace, startsNumber_brace]
  have operators : operator? (c :: (xs ++ '\x7d' :: f)) = operator? (c :: (xs ++ ['\x7d'])) := by
    apply operator?_congr
    cases xs <;> rfl
  have part : isIdentifierPart '\x7d' = false := by decide
  simp only [ofBlock, begins, takeWhile_brace _ part] at h ⊢
  split at h
  · next number =>
    have extent : ∀ f, verbatim (numberExtent (c :: (xs ++ '\x7d' :: f))).1
        (numberExtent (c :: (xs ++ '\x7d' :: f))).2 (c :: (xs ++ '\x7d' :: f)) =
          verbatim (numberExtent (c :: xs)).1 (numberExtent (c :: xs)).2 (c :: xs) := by
      intro f
      rw [← List.cons_append, numberExtent_brace]
      rw [startsNumber_brace] at number
      exact verbatim_append _ (numberExtent_le number)
    rw [if_pos number, extent f, ← extent []]
    exact h
  · next number =>
    rw [if_neg number]
    split at h
    · next spelling kind operator =>
      cases h
      simp only [operators, operator]
      have image := verbatim_operator operator
      have image' := verbatim_operator (operators.trans operator)
      exact congrArg Except.ok (image'.trans image.symm)
    · next none =>
      simp only [operators, none]
      split at h
      · cases h
      · next complete =>
        rw [if_neg complete]
        split at h
        · next quote =>
          rw [if_pos quote]
          have string := stringRest_append f (c :: (xs ++ '\x7d' :: f)) h
          rwa [List.append_assoc] at string
        · next quote =>
          rw [if_neg quote]
          exact h

/-- What stands behind a text that ends with a closing brace does not matter to its tokens. -/
theorem ofBlock_append (ends : ['\x7d'] <:+ c :: cs) (h : ofBlock c cs = .ok l) :
    ofBlock c (cs ++ f) = .ok l := by
  rcases List.suffix_cons_iff.mp ends with same | ⟨xs, rfl⟩
  · cases same
    exact h
  · rw [List.append_assoc]
    exact ofBlock_brace f h

/-- Only a brace closes a block. -/
theorem ofBlock_endEval (h : ofBlock c cs = .ok l) (close : l.kind = .endEval) :
    c = '\x7d' ∧ l.length = 1 := by
  cases inBlock_of_ofBlock h with
  | number =>
    change (numberExtent (c :: cs)).1 = .endEval at close
    rcases numberExtent_cases (c :: cs) with integer | ⟨n, -, float⟩
    · rw [integer] at close
      cases close
    · rw [float] at close
      cases close
  | operator ahead =>
    obtain ⟨member, longer⟩ := operator?_some ahead
    have brace : ∀ operator ∈ operators, operator.2 = .endEval → operator.1 = ['\x7d'] := by
      decide
    cases brace _ member close
    exact ⟨(List.cons_prefix_cons.mp longer).1.symm, rfl⟩
  | string _ closed => cases (stringRest_ok closed).1.symm.trans close
  | word => exact absurd close (ofWord_ne (by decide) _)

/-- A text goes on behind its end only if nothing else stood there. -/
theorem ofText_append (some : cs ≠ [])
    (inner : (ofText cs).kind = .text → cs.drop (ofText cs).length ≠ []) :
    ofText (cs ++ f) = ofText cs := by
  by_cases htext : (ofText cs).kind = .text
  · obtain ⟨raw, g, rfl, lexed, stands, stop⟩ := stands_of_ofText some htext
    have behind := inner htext
    rw [lexed, List.drop_left] at behind
    obtain ⟨kind, start⟩ := Option.isSome_iff_exists.mp (stop.resolve_left behind)
    have same : g.take 2 = (g ++ f).take 2 := by
      rcases delimiter?_eq_some start with ⟨-, rest, rfl⟩ | ⟨-, rest, rfl⟩ <;> rfl
    rw [List.append_assoc, (stands.congr same).2, lexed]
  · cases start : delimiter? cs with
    | some kind =>
      rcases delimiter?_eq_some start with ⟨-, rest, rfl⟩ | ⟨-, rest, rfl⟩ <;> rfl
    | none =>
      rw [ofText, start] at htext
      exact absurd rfl htext

end Lexeme

namespace Scanner

variable {s s' : Scanner} {t : Token} {ts : List Token} {stop : Nat}

/-- The scanner with more characters behind those that are ahead. -/
def extend (f : List Char) (s : Scanner) : Scanner :=
  { s with rest := s.rest ++ f }

variable (f : List Char)

theorem skipBlanks_extend (ends : ['\x7d'] <:+ s.rest) :
    (s.extend f).skipBlanks = s.skipBlanks.extend f ∧ ['\x7d'] <:+ s.skipBlanks.rest := by
  obtain ⟨mode, rest, position⟩ := s
  obtain ⟨xs, rfl⟩ := ends
  have nonblank : Text.isBlank '\x7d' = false := by decide
  have closed (f : List Char) := Lexeme.dropWhile_brace f nonblank xs
  have skipped (f : List Char) := Lexeme.takeWhile_brace f nonblank xs
  constructor
  · simp only [skipBlanks, extend, List.append_assoc, List.singleton_append, closed, skipped]
  · simp only [skipBlanks, closed]
    exact List.suffix_append _ _

/-- A step of a scanner does not depend on what stands behind a closing brace, unless it takes a
text up to there. -/
theorem next_extend (h : s.next = (.ok t, s')) (ends : ['\x7d'] <:+ s.rest)
    (inner : t.kind = .text → s'.rest ≠ []) : (s.extend f).next = (.ok t, s'.extend f) := by
  obtain ⟨mode, rest, position⟩ := s
  cases mode with
  | text =>
    cases rest with
    | nil => cases List.suffix_nil.mp ends
    | cons c cs =>
      cases h
      have short := Lexeme.ofText_length_le (c :: cs)
      have lexed := Lexeme.ofText_append f (List.cons_ne_nil c cs) inner
      rw [List.cons_append] at lexed
      have behind : ((c :: cs) ++ f).drop _ = (c :: cs).drop _ ++ f :=
        List.drop_append_of_le_length short
      simp only [next, extend, accept, List.cons_append, lexed] at behind ⊢
      rw [behind]
  | block =>
    obtain ⟨skipped, closes⟩ := skipBlanks_extend f ends
    simp only [next, extend] at h skipped ⊢
    rw [skipped]
    generalize skipBlanks ⟨.block, rest, position⟩ = s at h closes
    obtain ⟨mode, rest, position⟩ := s
    cases rest with
    | nil => cases List.suffix_nil.mp closes
    | cons c cs =>
      cases lexed : Lexeme.ofBlock c cs with
      | error fault =>
        simp only [lexed] at h
        cases h
      | ok l =>
        simp only [lexed] at h
        cases h
        have short := Lexeme.ofBlock_length_le lexed
        have behind : ((c :: cs) ++ f).drop _ = (c :: cs).drop _ ++ f :=
          List.drop_append_of_le_length short
        simp only [List.cons_append, Lexeme.ofBlock_append f closes lexed, accept] at behind ⊢
        rw [behind]

/-- Neither does a run of the scanner. -/
theorem Emits.extend (h : Emits s ts s') (proper : ∀ t ∈ ts, t.kind ≠ .eof)
    (ends : ['\x7d'] <:+ s.rest) (closed : ts.getLast?.map Token.kind = some .endEval) :
    Emits (s.extend f) ts (s'.extend f) := by
  induction h with
  | nil => exact .nil
  | @cons s s₁ s' t ts next further ih =>
    obtain ⟨kind, proper⟩ := List.forall_mem_cons.mp proper
    obtain ⟨taken, parted, -⟩ := next_consumes next
    cases ts with
    | nil =>
      have close : t.kind = .endEval := Option.some.inj closed
      cases further
      exact .cons (next_extend f next ends fun htext => nomatch close.symm.trans htext) .nil
    | cons u us =>
      have goesOn : s₁.rest ≠ [] := by
        intro ended
        cases further with
        | cons next' _ =>
          cases (next_of_rest_nil ended).symm.trans next'
          exact proper _ List.mem_cons_self rfl
      have ends₁ : ['\x7d'] <:+ s₁.rest := by
        have behind : s₁.rest <:+ s.rest := ⟨taken, parted.symm⟩
        exact List.suffix_of_suffix_length_le ends behind (List.length_pos_of_ne_nil goesOn)
      exact .cons (next_extend f next ends fun _ => goesOn) (ih proper ends₁ closed)

/-- Behind the closing brace of a block the scanner reads text. -/
theorem next_endEval (h : s.next = (.ok t, s')) (close : t.kind = .endEval) :
    s'.mode = .text ∧ '\x7d' :: s'.rest <:+ s.rest := by
  obtain ⟨mode, rest, position⟩ := s
  cases mode with
  | text =>
    cases rest with
    | nil =>
      cases h
      cases close
    | cons c cs =>
      cases h
      change (Lexeme.ofText (c :: cs)).kind = .endEval at close
      rw [Lexeme.ofText] at close
      split at close
      · next kind start =>
        rcases Lexeme.delimiter?_eq_some start with ⟨rfl, -⟩ | ⟨rfl, -⟩ <;> cases close
      · cases close
  | block =>
    have behind : (skipBlanks ⟨.block, rest, position⟩).rest <:+ rest := List.dropWhile_suffix _
    simp only [next] at h
    split at h
    · cases h
      cases close
    · next c cs ahead =>
      split at h
      · next l lexed =>
        cases h
        obtain ⟨rfl, length⟩ := Lexeme.ofBlock_endEval lexed close
        rw [ahead] at behind
        simp only [accept, ahead, length]
        refine ⟨?_, behind⟩
        rw [show l.kind = .endEval from close]
        rfl
      · cases h

theorem Emits.closes (h : Emits s ts s') (closed : ts.getLast?.map Token.kind = some .endEval) :
    s'.mode = .text ∧ '\x7d' :: s'.rest <:+ s.rest := by
  induction h with
  | nil => cases closed
  | @cons s s₁ s' t ts next further ih =>
    obtain ⟨taken, parted, -⟩ := next_consumes next
    cases ts with
    | nil =>
      cases further
      exact next_endEval next (Option.some.inj closed)
    | cons u us =>
      obtain ⟨mode, closes⟩ := ih closed
      exact ⟨mode, closes.trans ⟨taken, parted.symm⟩⟩

/-- If the last token closes a block, then a text behind it is scanned like one of its own. -/
theorem tape_append {cs ds : List Char} (scanned : (ofChars cs).tape = ⟨ts, .ok stop⟩)
    (closed : ts.getLast?.map Token.kind = some .endEval) :
    (ofChars (cs ++ ds)).tape = ⟨ts ++ ((ofChars ds).tape.shift cs.length).tokens,
      ((ofChars ds).tape.shift cs.length).final⟩ := by
  have proper := (ofChars cs).ne_eof_of_mem_tape
  rw [scanned] at proper
  obtain ⟨s', emits, ended⟩ : ∃ s', Emits (ofChars cs) ts s' ∧ s'.tape = ⟨[], .ok stop⟩ :=
    Emits.of_tape (by rw [List.append_nil]; exact scanned)
  obtain ⟨mode, ends⟩ := emits.closes closed
  obtain ⟨taken, parted, position⟩ := emits.consumes
  obtain ⟨_, rest, q⟩ := s'
  cases mode
  cases rest with
  | cons c rest =>
    -- In text everything that is ahead gives a token.
    cases ended.symm.trans (tape_of_token rfl (Lexeme.ofText_kind_ne_eof _))
  | nil =>
    have extended := emits.extend ds proper ends closed
    have behind : (⟨.text, [], q⟩ : Scanner).extend ds = (ofChars ds).shift cs.length := by
      rw [List.append_nil] at parted
      change cs = taken at parted
      change q = 0 + taken.length at position
      rw [position, ← parted, Nat.zero_add]
      rfl
    rw [behind] at extended
    have whole := extended.tape_eq proper
    rw [tape_shift] at whole
    exact whole

end Scanner

end ElTemplate
