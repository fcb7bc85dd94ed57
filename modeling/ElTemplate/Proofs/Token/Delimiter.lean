import ElTemplate.Proofs.Text.Delimiter
import ElTemplate.Proofs.Token.Tiling

/-!
# Where blocks start

Outside of blocks a scanner gives a delimiter exactly where one stands. Otherwise it gives a text,
which goes on to the first delimiter behind it that no backslash escapes. The flag that the scan
keeps is the parity of the backslashes directly before.
-/

namespace ElTemplate

namespace Text

/-- A text that begins at offset `p` ends at `q`: this is the first offset behind `p` where a block
begins, or the end if there is none. -/
structure Ends (cs : List Char) (p q : Nat) : Prop where
  after : p < q
  within : q ≤ cs.length
  stops : OpensAt cs p q ∨ q = cs.length
  first : ∀ r, p < r → r < q → ¬ OpensAt cs p r

variable {cs f : List Char} {deferred : Bool} {p q n : Nat}

theorem delimiterAt_drop :
    DelimiterAt deferred (cs.drop p) q ↔ DelimiterAt deferred cs (p + q) := by
  rw [DelimiterAt, DelimiterAt, List.drop_drop]

theorem opensAt_drop : OpensAt (cs.drop p) 0 q ↔ OpensAt cs p (p + q) := by
  simp [OpensAt, delimiterAt_drop, List.extract_eq_take_drop]

/-- Where the text is read from does not matter. -/
theorem Ends.of_drop (h : Ends (cs.drop p) 0 n) : Ends cs p (p + n) := by
  have within := h.within
  have after := h.after
  rw [List.length_drop] at within
  constructor
  case after => omega
  case within => omega
  case stops =>
    refine h.stops.imp opensAt_drop.mp fun ended => ?_
    rw [List.length_drop] at ended
    omega
  case first =>
    intro r less more opens
    obtain ⟨r, rfl⟩ := Nat.exists_eq_add_of_lt less
    exact h.first (r + 1) (by omega) (by omega) (opensAt_drop.mpr opens)

theorem DelimiterAt.append (h : DelimiterAt deferred cs q) (f : List Char) :
    DelimiterAt deferred (cs ++ f) q := by
  rw [DelimiterAt, List.drop_append]
  exact List.IsPrefix.trans h (List.prefix_append _ _)

/-- What begins in a text begins with more characters behind it as well. -/
theorem OpensAt.append (h : OpensAt cs 0 q) (f : List Char) : OpensAt (cs ++ f) 0 q := by
  obtain ⟨⟨deferred, found⟩, even⟩ := h
  refine ⟨⟨deferred, found.append f⟩, ?_⟩
  have before : (cs ++ f).take q = cs.take q :=
    List.take_append_of_le_length (Nat.le_of_lt found.lt)
  simpa [List.extract_eq_take_drop, before] using even

end Text

namespace Lexeme

open Text

variable {cs f raw : List Char} {deferred : Bool}

theorem delimiter?_of_delimiterAt (h : DelimiterAt deferred cs 0) :
    delimiter? cs = some (if deferred then .startDeferred else .startDynamic) := by
  obtain ⟨rest, rfl⟩ := h
  cases deferred <;> rfl

theorem exists_delimiterAt_iff :
    (∃ deferred, DelimiterAt deferred cs 0) ↔ (delimiter? cs).isSome := by
  constructor
  · rintro ⟨deferred, found⟩
    rw [delimiter?_of_delimiterAt found]
    rfl
  · intro found
    obtain ⟨kind, start⟩ := Option.isSome_iff_exists.mp found
    rcases delimiter?_eq_some start with ⟨-, rest, rfl⟩ | ⟨-, rest, rfl⟩
    · exact ⟨false, ⟨rest, rfl⟩⟩
    · exact ⟨true, ⟨rest, rfl⟩⟩

theorem opensAt_length (before cs : List Char) : OpensAt (before ++ cs) 0 before.length ↔
    (delimiter? cs).isSome ∧ Even (backslashes before) := by
  rw [← exists_delimiterAt_iff]
  refine and_congr (exists_congr fun deferred => ?_) ?_
  · exact delimiterAt_append before cs 0
  · simp [List.extract_eq_take_drop]

/-- The scan goes on to the first place where a block begins. The induction is on the characters
ahead; the flag says whether a backslash is left over of those before. -/
theorem textLength_ends (before : List Char) {escaped : Bool}
    (parity : escaped = !decide (Even (backslashes before))) (length : Nat) (cs : List Char) :
    ∃ n, textLength escaped length cs = length + n ∧ n ≤ cs.length ∧
      (OpensAt (before ++ cs) 0 (before.length + n) ∨ n = cs.length) ∧
      ∀ m < n, ¬ OpensAt (before ++ cs) 0 (before.length + m) := by
  induction cs generalizing before escaped length with
  | nil => exact ⟨0, rfl, Nat.le_refl 0, .inr rfl, fun m less => absurd less (Nat.not_lt_zero m)⟩
  | cons c cs ih =>
    have here := opensAt_length before (c :: cs)
    have goesOn (more : ¬ OpensAt (before ++ c :: cs) 0 before.length) {escaped : Bool}
        (parity : escaped = !decide (Even (backslashes (before ++ [c])))) :
        ∃ n, textLength escaped (length + 1) cs = length + n ∧ n ≤ (c :: cs).length ∧
          (OpensAt (before ++ c :: cs) 0 (before.length + n) ∨ n = (c :: cs).length) ∧
          ∀ m < n, ¬ OpensAt (before ++ c :: cs) 0 (before.length + m) := by
      obtain ⟨n, taken, bounded, stops, first⟩ := ih (before ++ [c]) parity (length + 1)
      simp only [List.append_assoc, List.singleton_append, List.length_append,
        List.length_singleton, Nat.add_assoc, Nat.add_comm 1] at taken stops first
      refine ⟨n + 1, taken, Nat.succ_le_succ bounded, ?_, ?_⟩
      · exact stops.imp_right (congrArg (· + 1))
      · intro m less
        cases m with
        | zero => exact more
        | succ m => exact first m (Nat.lt_of_succ_lt_succ less)
    rw [textLength]
    split
    · next slash =>
      have more : ¬ OpensAt (before ++ c :: cs) 0 before.length := by
        rw [here, slash]
        rintro ⟨start, -⟩
        cases start
      refine goesOn more ?_
      rw [parity, backslashes_concat, if_pos slash]
      by_cases even : Even (backslashes before) <;> simp [Nat.even_add_one, even]
    · next plain =>
      split
      · next stop =>
        refine ⟨0, rfl, Nat.zero_le _, .inl (here.mpr ?_),
          fun m less => absurd less (Nat.not_lt_zero m)⟩
        simpa [parity] using stop
      · next more =>
        refine goesOn ?_ ?_
        · simpa [here, parity] using more
        · rw [backslashes_concat, if_neg plain]
          rfl

/-- A text is what is read up to its end. -/
theorem ofText_of_plain (some : cs ≠ []) (plain : ∀ deferred, ¬ DelimiterAt deferred cs 0) :
    ∃ n, ofText cs = verbatim .text n cs ∧ Ends cs 0 n := by
  obtain ⟨c, cs, rfl⟩ := List.exists_cons_of_ne_nil some
  have none : delimiter? (c :: cs) = none := by
    rw [← Option.not_isSome_iff_eq_none, ← exists_delimiterAt_iff]
    exact not_exists.mpr plain
  have parity : false = !decide (Even (backslashes [])) := by simp
  obtain ⟨n, taken, bounded, stops, first⟩ := textLength_ends [] parity 0 (c :: cs)
  have positive := textLength_pos none
  simp only [List.nil_append, List.length_nil, Nat.zero_add] at taken stops first
  rw [taken] at positive
  refine ⟨n, ?_, positive, bounded, stops, fun m _ less => first m less⟩
  rw [ofText, none, taken]

/-- In what is scanned as a text no block begins. -/
theorem Stands.sealed (h : Stands raw f) : Sealed raw := by
  obtain ⟨some, lexed⟩ := h
  have plain : ∀ deferred, ¬ DelimiterAt deferred (raw ++ f) 0 := by
    intro deferred found
    rw [ofText, delimiter?_of_delimiterAt found] at lexed
    cases deferred <;> cases congrArg Lexeme.kind lexed
  obtain ⟨n, read, ends⟩ := ofText_of_plain (List.append_ne_nil_of_left_ne_nil some f) plain
  obtain rfl : n = raw.length := congrArg Lexeme.length (read.symm.trans lexed)
  intro q opens
  have within : q < raw.length := by
    obtain ⟨⟨deferred, found⟩, -⟩ := opens
    exact found.lt
  rcases Nat.eq_zero_or_pos q with rfl | positive
  · obtain ⟨⟨deferred, found⟩, -⟩ := opens.append f
    exact plain deferred found
  · exact ends.first q positive within (opens.append f)

end Lexeme

namespace Scanner

open Text

variable {cs : List Char} {deferred : Bool} {p : Nat}

/-- A delimiter is read where it stands. -/
theorem next_of_delimiterAt (found : DelimiterAt deferred cs p) : next ⟨.text, cs.drop p, p⟩ =
    (.ok ⟨if deferred then .startDeferred else .startDynamic, String.ofList (opener deferred), p⟩,
      ⟨.block, cs.drop (p + 2), p + 2⟩) := by
  obtain ⟨rest, ahead⟩ := found
  have behind : cs.drop (p + 2) = rest := by
    rw [← List.drop_drop, ← ahead]
    rfl
  rw [behind, ← ahead]
  cases deferred <;> rfl

/-- Where no delimiter stands, the text is read up to its end. -/
theorem next_of_plain (inside : p < cs.length) (plain : ∀ deferred, ¬ DelimiterAt deferred cs p) :
    ∃ q, Ends cs p q ∧ next ⟨.text, cs.drop p, p⟩ =
      (.ok ⟨.text, String.ofList (cs.extract p q), p⟩, ⟨.text, cs.drop q, q⟩) := by
  have some : cs.drop p ≠ [] := by
    rw [ne_eq, List.drop_eq_nil_iff]
    omega
  obtain ⟨n, read, ends⟩ := Lexeme.ofText_of_plain some fun deferred found =>
    plain deferred (delimiterAt_drop.mp found)
  have within := ends.within
  have long : ((cs.drop p).take n).length = n := List.length_take_of_le within
  have positive : (cs.drop p).take n ≠ [] :=
    List.ne_nil_of_length_pos (long.symm ▸ ends.after)
  have next := next_of_ofText (f := (cs.drop p).drop n) positive
    (by rw [List.take_append_drop, read, Lexeme.verbatim, long]) p
  rw [List.take_append_drop, List.drop_drop, long] at next
  refine ⟨p + n, ends.of_drop, next.trans ?_⟩
  rw [List.extract_eq_take_drop, Nat.add_sub_cancel_left]
  rfl

/-- A delimiter is read exactly where it stands. -/
theorem next_eq_delimiter_iff (inside : p < cs.length) : next ⟨.text, cs.drop p, p⟩ =
      (.ok ⟨if deferred then .startDeferred else .startDynamic, String.ofList (opener deferred), p⟩,
        ⟨.block, cs.drop (p + 2), p + 2⟩) ↔ DelimiterAt deferred cs p := by
  refine ⟨fun read => ?_, next_of_delimiterAt⟩
  by_cases start : ∃ deferred, DelimiterAt deferred cs p
  · obtain ⟨other, found⟩ := start
    have same : other = deferred := by
      have kinds := (next_of_delimiterAt found).symm.trans read
      cases other <;> cases deferred <;> first | rfl | cases kinds
    exact same ▸ found
  · obtain ⟨q, -, text⟩ := next_of_plain inside (not_exists.mp start)
    have same := text.symm.trans read
    cases deferred <;> cases same

theorem exists_mem_tape_of_delimiterAt (found : DelimiterAt deferred cs p) :
    ∃ t ∈ (tape ⟨.text, cs.drop p, p⟩).tokens, t.kind ≠ .text := by
  rw [tape_of_token (next_of_delimiterAt found) (by cases deferred <;> exact nofun)]
  exact ⟨_, List.mem_cons_self, by cases deferred <;> exact nofun⟩

/-- Where a block begins, not all that is read is text. -/
theorem exists_mem_tape_of_opensAt {q : Nat} (h : OpensAt cs p q) (behind : p ≤ q) :
    ∃ t ∈ (tape ⟨.text, cs.drop p, p⟩).tokens, t.kind ≠ .text := by
  by_cases start : ∃ deferred, DelimiterAt deferred cs p
  · obtain ⟨deferred, found⟩ := start
    exact exists_mem_tape_of_delimiterAt found
  · have inside : q < cs.length := by
      obtain ⟨⟨deferred, found⟩, -⟩ := h
      exact found.lt
    have after : p < q := by
      refine Nat.lt_of_le_of_ne behind ?_
      rintro rfl
      exact start h.1
    obtain ⟨stop, ends, first⟩ :=
      next_of_plain (Nat.lt_trans after inside) (not_exists.mp start)
    have before : stop ≤ q := Nat.le_of_not_lt fun less => ends.first q after less h
    obtain ⟨⟨deferred, found⟩, -⟩ := ends.stops.resolve_right (by omega)
    obtain ⟨t, member, other⟩ := exists_mem_tape_of_delimiterAt found
    rw [tape_of_token first nofun]
    exact ⟨t, List.mem_cons_of_mem _ member, other⟩

/-- The image of a delimiter is its spelling. -/
theorem image_of_next {s s' : Scanner} {t : Token} (read : s.next = (.ok t, s'))
    (start : t.kind = if deferred then .startDeferred else .startDynamic) :
    t.image = String.ofList (opener deferred) := by
  have moves := moves_of_next read (start ▸ by cases deferred <;> exact nofun)
  have outside : s.mode = .text :=
    moves.fits.outside.mp (start ▸ by cases deferred <;> decide)
  have verbatim := moves.fits.verbatim (start ▸ by cases deferred <;> exact nofun)
  have lexed := moves.text outside
  rw [← String.toList_inj, String.toList_ofList]
  refine verbatim.trans ?_
  rw [Lexeme.ofText] at lexed
  split at lexed
  · next kind found =>
    have same : kind = t.kind := congrArg Lexeme.kind lexed
    have image := congrArg Lexeme.image lexed
    rw [start] at same
    rcases Lexeme.delimiter?_eq_some found with ⟨dynamic, rest, ahead⟩ | ⟨number, rest, ahead⟩
    · cases deferred with
      | false => exact image.symm.trans (ahead ▸ rfl)
      | true => cases same.symm.trans dynamic
    · cases deferred with
      | false => cases same.symm.trans number
      | true => exact image.symm.trans (ahead ▸ rfl)
  · have same : Token.Kind.text = t.kind := congrArg Lexeme.kind lexed
    rw [start] at same
    cases deferred <;> cases same

theorem image_of_mem_tape (s : Scanner) : ∀ t ∈ s.tape.tokens, ∀ deferred,
    t.kind = (if deferred then .startDeferred else .startDynamic) →
      t.image = String.ofList (opener deferred) := by
  induction s using tape.induct with
  | case1 s e s' next =>
    rw [tape_of_error next]
    exact List.forall_mem_nil _
  | case2 s t s' next kind =>
    rw [tape_of_eof next kind]
    exact List.forall_mem_nil _
  | case3 s t s' next kind ih =>
    rw [tape_of_token next kind]
    exact List.forall_mem_cons.mpr ⟨fun _ => image_of_next next, ih⟩

end Scanner

end ElTemplate
