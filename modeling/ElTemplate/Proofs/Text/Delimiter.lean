import ElTemplate.Text.Escape
import Mathlib.Algebra.Group.Nat.Even
import Mathlib.Data.List.DropRight

/-!
# Delimiters and the backslashes before them

Whether a block begins at a delimiter depends on the backslashes that stand directly before it: two
of them are a backslash, and one that is left over keeps the block from being opened. Where no block
begins, every delimiter belongs to an escape, and `unescape` takes its backslash away.
-/

namespace ElTemplate.Text

/-- The spelling of the delimiter that opens a block. -/
def opener (deferred : Bool) : List Char :=
  [if deferred then '#' else '$', '\x7b']

/-- The delimiter is at offset `q`. -/
def DelimiterAt (deferred : Bool) (cs : List Char) (q : Nat) : Prop :=
  opener deferred <+: cs.drop q

instance (deferred : Bool) (cs : List Char) (q : Nat) : Decidable (DelimiterAt deferred cs q) :=
  inferInstanceAs (Decidable (opener deferred <+: cs.drop q))

/-- The number of backslashes that the text ends with. -/
def backslashes (cs : List Char) : Nat :=
  (cs.rtakeWhile (· == '\\')).length

/-- In a text that is read from offset `p` on, a block begins at offset `q`: a delimiter is there,
and the run of backslashes directly before it, cut off at `p`, has even length. -/
def OpensAt (cs : List Char) (p q : Nat) : Prop :=
  (∃ deferred, DelimiterAt deferred cs q) ∧ Even (backslashes (cs.extract p q))

/-- No block begins in the text. -/
def Sealed (cs : List Char) : Prop :=
  ∀ q, ¬ OpensAt cs 0 q

variable {cs rest : List Char} {c : Char} {deferred : Bool} {p q : Nat}

@[simp] theorem backslashes_nil : backslashes [] = 0 := rfl

theorem backslashes_concat (cs : List Char) (c : Char) :
    backslashes (cs ++ [c]) = if c = '\\' then backslashes cs + 1 else 0 := by
  by_cases slash : c = '\\' <;> simp [backslashes, slash]

/-- A first character counts only if it is a backslash and nothing else is behind it. -/
theorem backslashes_cons (c : Char) (cs : List Char) : backslashes (c :: cs) =
    if (c :: cs).all (· == '\\') then backslashes cs + 1 else backslashes cs := by
  induction cs using List.reverseRecOn with
  | nil =>
    have single := backslashes_concat [] c
    simpa using single
  | append_singleton cs d ih =>
    rw [← List.cons_append, backslashes_concat, backslashes_concat, ih]
    by_cases slash : d = '\\'
    · have same : (c :: cs ++ [d]).all (· == '\\') = (c :: cs).all (· == '\\') := by
        simp [slash]
      rw [if_pos slash, if_pos slash, same]
      split <;> rfl
    · have some : ¬ (c :: cs ++ [d]).all (· == '\\') := by simp [slash]
      rw [if_neg slash, if_neg slash, if_neg some]

theorem backslashes_cons_of_ne (other : c ≠ '\\') (cs : List Char) :
    backslashes (c :: cs) = backslashes cs := by
  rw [backslashes_cons, if_neg (by simp [other])]

theorem backslashes_cons_cons_of_ne (b : Char) (other : c ≠ '\\') (cs : List Char) :
    backslashes (b :: c :: cs) = backslashes (c :: cs) := by
  rw [backslashes_cons, if_neg (by simp [other])]

theorem even_backslashes_cons_cons (cs : List Char) :
    Even (backslashes ('\\' :: '\\' :: cs)) ↔ Even (backslashes cs) := by
  rw [backslashes_cons, backslashes_cons]
  by_cases all : cs.all (· == '\\')
  · rw [if_pos (by simpa using all), if_pos (by simpa using all)]
    grind
  · rw [if_neg (by simpa using all), if_neg (by simpa using all)]

theorem delimiterAt_append (ahead cs : List Char) (q : Nat) :
    DelimiterAt deferred (ahead ++ cs) (ahead.length + q) ↔ DelimiterAt deferred cs q := by
  rw [DelimiterAt, DelimiterAt, List.drop_length_add_append]

theorem delimiterAt_cons : DelimiterAt deferred (c :: cs) (q + 1) ↔ DelimiterAt deferred cs q :=
  Iff.rfl

/-- A delimiter begins with its mark. -/
theorem DelimiterAt.head (h : DelimiterAt deferred (c :: cs) 0) :
    c = if deferred then '#' else '$' :=
  (List.cons_prefix_cons.mp h).1.symm

theorem not_delimiterAt_zero (other : c ≠ '$' ∧ c ≠ '#') : ¬ DelimiterAt deferred (c :: cs) 0 := by
  intro h
  have mark := h.head
  cases deferred with
  | false => exact other.1 mark
  | true => exact other.2 mark

theorem DelimiterAt.lt (h : DelimiterAt deferred cs q) : q < cs.length := by
  have within : (opener deferred).length ≤ (cs.drop q).length := List.IsPrefix.length_le h
  rw [List.length_drop, opener, List.length_cons] at within
  omega

theorem not_delimiterAt_nil : ¬ DelimiterAt deferred [] q :=
  fun h => absurd h.lt (Nat.not_lt_zero q)

/-- A block that begins in a text begins there as well with more characters ahead, unless they
change whether a backslash is left over. -/
theorem OpensAt.behind (ahead : List Char) (h : OpensAt cs 0 q)
    (even : Even (backslashes (cs.extract 0 q)) → Even (backslashes (ahead ++ cs.extract 0 q))) :
    OpensAt (ahead ++ cs) 0 (ahead.length + q) := by
  obtain ⟨⟨deferred, found⟩, run⟩ := h
  refine ⟨⟨deferred, (delimiterAt_append ahead cs q).mpr found⟩, ?_⟩
  simpa [List.extract_eq_take_drop, List.take_length_add_append] using even run

/-- What `unescape` reads at one go: a character that stands for itself, two backslashes, or a
delimiter with the backslash that keeps it from opening a block. -/
inductive Piece where
  | plain (c : Char)
  | backslash
  | delimiter (deferred : Bool)
deriving DecidableEq, Repr

namespace Piece

/-- The characters of a piece. -/
def raw : Piece → List Char
  | plain c => [c]
  | backslash => ['\\', '\\']
  | delimiter deferred => '\\' :: opener deferred

/-- The text that is meant by a piece. -/
def meaning : Piece → List Char
  | plain c => [c]
  | backslash => ['\\']
  | delimiter deferred => opener deferred

end Piece

/-- The pieces of a raw spelling. -/
def pieces : List Char → List Piece
  | '\\' :: '\\' :: rest => .backslash :: pieces rest
  | '\\' :: '$' :: '\x7b' :: rest => .delimiter false :: pieces rest
  | '\\' :: '#' :: '\x7b' :: rest => .delimiter true :: pieces rest
  | c :: rest => .plain c :: pieces rest
  | [] => []

theorem flatMap_raw_pieces (cs : List Char) : (pieces cs).flatMap Piece.raw = cs := by
  fun_induction pieces cs <;> simp_all [Piece.raw, opener]

theorem flatMap_meaning_pieces (cs : List Char) :
    (pieces cs).flatMap Piece.meaning = unescape cs := by
  fun_induction pieces cs with
  | case1 rest ih => simp [unescape, Piece.meaning, ih]
  | case2 rest ih => simp [unescape, Piece.meaning, opener, ih]
  | case3 rest ih => simp [unescape, Piece.meaning, opener, ih]
  | case4 c rest h1 h2 h3 ih =>
    rw [unescape] <;> simp_all [Piece.meaning]
  | case5 => rfl

/-- The delimiter at offset `q` is the tail of an escape, whose backslash is directly before it. -/
def EscapedAt (deferred : Bool) (cs : List Char) (q : Nat) : Prop :=
  ∃ before after, pieces cs = before ++ .delimiter deferred :: after ∧
    q = (before.flatMap Piece.raw).length + 1

theorem EscapedAt.behind (piece : Piece) (parted : pieces cs = piece :: pieces rest)
    (h : EscapedAt deferred rest q) : EscapedAt deferred cs (q + piece.raw.length) := by
  obtain ⟨before, after, further, place⟩ := h
  refine ⟨piece :: before, after, by rw [parted, further, List.cons_append], ?_⟩
  rw [List.flatMap_cons, List.length_append, place]
  omega

/-- In front of an escaped delimiter nothing changes. -/
theorem even_backslashes_delimiter (deferred : Bool) (cs : List Char) :
    Even (backslashes ('\\' :: opener deferred ++ cs)) ↔ Even (backslashes cs) := by
  have mark : (if deferred then '#' else '$') ≠ '\\' := by cases deferred <;> decide
  rw [opener, List.cons_append, List.cons_append, backslashes_cons_cons_of_ne _ mark,
    backslashes_cons_of_ne mark, List.cons_append, backslashes_cons_of_ne (by decide),
    List.nil_append]

/-- A single backslash keeps nothing from being opened that is not directly behind it. -/
theorem OpensAt.behind_backslash (h : OpensAt cs 0 q) (zero : q ≠ 0)
    (other : cs.head? ≠ some '\\') : OpensAt ('\\' :: cs) 0 (1 + q) := by
  refine h.behind ['\\'] fun even => ?_
  cases cs with
  | nil => simp [OpensAt, not_delimiterAt_nil] at h
  | cons c cs =>
    obtain ⟨q, rfl⟩ := Nat.exists_eq_succ_of_ne_zero zero
    have different : c ≠ '\\' := fun same => other (congrArg some same)
    have taken : (c :: cs).extract 0 (q + 1) = c :: cs.extract 0 q := by
      simp [List.extract_eq_take_drop]
    rw [taken] at even ⊢
    rwa [List.singleton_append, backslashes_cons_cons_of_ne _ different]

theorem pieces_delimiter (deferred : Bool) (rest : List Char) :
    pieces ('\\' :: opener deferred ++ rest) = .delimiter deferred :: pieces rest := by
  cases deferred <;> simp [pieces, opener]

/-- An escaped delimiter is the tail of its escape, and the others are behind it. -/
theorem escapedAt_of_delimiter (opened : Bool) (h : Sealed ('\\' :: opener opened ++ rest))
    (found : DelimiterAt deferred ('\\' :: opener opened ++ rest) q)
    (further : ∀ q, Sealed rest → DelimiterAt deferred rest q → EscapedAt deferred rest q) :
    EscapedAt deferred ('\\' :: opener opened ++ rest) q := by
  match q with
  | 0 => exact absurd found (not_delimiterAt_zero (by decide))
  | 1 =>
    have same : opened = deferred := by
      have mark := (delimiterAt_cons.mp found).head
      cases opened <;> cases deferred <;> first | rfl | exact absurd mark (by decide)
    exact ⟨[], pieces rest, same ▸ pieces_delimiter opened rest, rfl⟩
  | 2 =>
    exact absurd (delimiterAt_cons.mp (delimiterAt_cons.mp found))
      (not_delimiterAt_zero (by decide))
  | q + 3 =>
    have sealed : Sealed rest := fun q opens =>
      h _ (opens.behind _ (even_backslashes_delimiter opened _).mpr)
    have behind := delimiterAt_cons.mp (delimiterAt_cons.mp (delimiterAt_cons.mp found))
    exact (further q sealed behind).behind _ (pieces_delimiter opened rest)

/-- A delimiter in a text in which no block begins is the tail of an escape. -/
theorem Sealed.escapedAt (h : Sealed cs) (found : DelimiterAt deferred cs q) :
    EscapedAt deferred cs q := by
  fun_induction pieces cs generalizing q with
  | case1 rest ih =>
    match q with
    | 0 => exact absurd found (not_delimiterAt_zero (by decide))
    | 1 => exact absurd (delimiterAt_cons.mp found) (not_delimiterAt_zero (by decide))
    | q + 2 =>
      have sealed : Sealed rest := fun q opens =>
        h _ (opens.behind ['\\', '\\'] (even_backslashes_cons_cons _).mpr)
      have behind := delimiterAt_cons.mp (delimiterAt_cons.mp found)
      exact (ih sealed behind).behind .backslash (by rw [pieces])
  | case2 rest ih => exact escapedAt_of_delimiter false h found fun _ sealed => ih sealed
  | case3 rest ih => exact escapedAt_of_delimiter true h found fun _ sealed => ih sealed
  | case4 c rest pair dynamic number ih =>
    match q with
    | 0 => exact absurd ⟨⟨deferred, found⟩, Even.zero⟩ (h 0)
    | q + 1 =>
      have sealed : Sealed rest := by
        intro q opens
        by_cases slash : c = '\\'
        · subst slash
          have zero : q ≠ 0 := by
            rintro rfl
            obtain ⟨⟨deferred, start⟩, -⟩ := opens
            obtain ⟨behind, rfl⟩ := start
            cases deferred with
            | false => exact dynamic behind rfl rfl
            | true => exact number behind rfl rfl
          have other : rest.head? ≠ some '\\' := fun head =>
            pair rest.tail rfl (List.eq_cons_of_mem_head? head)
          exact h _ (opens.behind_backslash zero other)
        · refine h _ (opens.behind [c] ?_)
          rw [List.singleton_append, backslashes_cons_of_ne slash]
          exact id
      refine (ih sealed (delimiterAt_cons.mp found)).behind (.plain c) ?_
      rw [pieces] <;> simp_all
  | case5 => exact absurd found not_delimiterAt_nil

end ElTemplate.Text
