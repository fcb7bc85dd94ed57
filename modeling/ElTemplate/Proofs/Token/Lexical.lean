import ElTemplate.Proofs.Number.Digits
import ElTemplate.Proofs.Token.Progress

/-!
# The lexical grammar of blocks

Which characters spell which token inside a block, said without a scanner. A token has one image but
can have many spellings: numbers keep all their digits, while a string has either quote around it
and escapes where it likes. What a scanner accepts as a token is spelled as the grammar says.
-/

namespace ElTemplate

namespace Lexical

open Text

/-- A run of digits. -/
structure IsDigits (ds : List Char) : Prop where
  some : ds ≠ []
  digits : ∀ c ∈ ds, c.isDigit

/-- An exponent: a mark, an optional sign, and digits. -/
inductive IsExponent : List Char → Prop where
  | plain {mark : Char} {ds : List Char} (hmark : mark = 'e' ∨ mark = 'E') (digits : IsDigits ds) :
      IsExponent (mark :: ds)
  | signed {mark sign : Char} {ds : List Char} (hmark : mark = 'e' ∨ mark = 'E')
      (hsign : sign = '+' ∨ sign = '-') (digits : IsDigits ds) : IsExponent (mark :: sign :: ds)

/-- A float: digits with a point behind, before or among them and at most one exponent, or digits
without a point and an exponent. -/
inductive IsFloat : List Char → Prop where
  | pointed {whole fraction exponent : List Char} (wholeDigits : ∀ c ∈ whole, c.isDigit)
      (fractionDigits : ∀ c ∈ fraction, c.isDigit) (some : whole = [] → fraction ≠ [])
      (suffix : exponent = [] ∨ IsExponent exponent) :
      IsFloat (whole ++ '.' :: (fraction ++ exponent))
  | whole {whole exponent : List Char} (digits : IsDigits whole) (suffix : IsExponent exponent) :
      IsFloat (whole ++ exponent)

/-- The characters between quotes spell the content of a string: a backslash stands before another
backslash and before quotes only, and before the closing quote's like inside. -/
inductive Quoted (quote : Char) : List Char → List Char → Prop where
  | nil : Quoted quote [] []
  | plain {c : Char} {body content : List Char} (slash : c ≠ '\\') (other : c ≠ quote)
      (more : Quoted quote body content) : Quoted quote (c :: body) (c :: content)
  | escaped {c : Char} {body content : List Char} (escapable : c = '\\' ∨ c = '\'' ∨ c = '"')
      (more : Quoted quote body content) : Quoted quote ('\\' :: c :: body) (c :: content)

/-- The characters spell a token of this kind with this image. -/
inductive Spells : List Char → Token.Kind → List Char → Prop where
  | operator {spelling : List Char} {kind : Token.Kind}
      (listed : (spelling, kind) ∈ Lexeme.operators) : Spells spelling kind spelling
  | word {c : Char} {cs : List Char} (start : isIdentifierStart c)
      (part : ∀ d ∈ cs, isIdentifierPart d) :
      Spells (c :: cs) (.ofWord (String.ofList (c :: cs))) (c :: cs)
  | integer {ds : List Char} (digits : IsDigits ds) : Spells ds .integer ds
  | float {cs : List Char} (float : IsFloat cs) : Spells cs .float cs
  | string {quote : Char} {body content : List Char} (hquote : quote = '"' ∨ quote = '\'')
      (quoted : Quoted quote body content) : Spells (quote :: (body ++ [quote])) .string content

variable {e f cs ds : List Char}

/-- A text begins in one way with so many characters. -/
theorem prefix_unique {xs ys : List Char} (h : xs <+: cs) (h' : ys <+: cs)
    (same : xs.length = ys.length) : xs = ys :=
  (List.prefix_of_prefix_length_le h h' (Nat.le_of_eq same)).eq_of_length same

theorem IsDigits.append (h : IsDigits ds) {more : List Char} (digits : ∀ c ∈ more, c.isDigit) :
    IsDigits (ds ++ more) :=
  ⟨List.append_ne_nil_of_left_ne_nil h.some more, List.forall_mem_append.mpr ⟨h.digits, digits⟩⟩

/-- An exponent goes on with digits. -/
theorem IsExponent.append (h : IsExponent e) {more : List Char} (digits : ∀ c ∈ more, c.isDigit) :
    IsExponent (e ++ more) := by
  cases h with
  | plain hmark run => exact .plain hmark (run.append digits)
  | signed hmark hsign run => exact .signed hmark hsign (run.append digits)

/-- An exponent begins with its mark. -/
theorem IsExponent.head (h : IsExponent e) :
    ∃ mark tail, e = mark :: tail ∧ (mark = 'e' ∨ mark = 'E') := by
  cases h with
  | plain hmark _ => exact ⟨_, _, rfl, hmark⟩
  | signed hmark _ _ => exact ⟨_, _, rfl, hmark⟩

theorem IsExponent.ne_nil (h : IsExponent e) : e ≠ [] := by
  obtain ⟨mark, tail, rfl, -⟩ := h.head
  exact List.cons_ne_nil mark tail

theorem IsExponent.not_digit (h : IsExponent e) (f : List Char) :
    (e ++ f).head?.any Char.isDigit = false := by
  obtain ⟨mark, tail, rfl, rfl | rfl⟩ := h.head <;> rfl

theorem IsExponent.not_point (h : IsExponent e) (f tail : List Char) : e ++ f ≠ '.' :: tail := by
  obtain ⟨mark, digits, rfl, rfl | rfl⟩ := h.head <;>
    exact fun same => absurd (List.cons.inj same).1 (by decide)

namespace Spells

variable {kind : Token.Kind} {image : List Char}

theorem ne_nil (h : Spells cs kind image) : cs ≠ [] := by
  cases h with
  | operator listed =>
    exact (by decide : ∀ operator ∈ Lexeme.operators, operator.1 ≠ []) _ listed
  | word => exact List.cons_ne_nil _ _
  | integer digits => exact digits.some
  | float float => cases float <;> simp_all [IsExponent.ne_nil]
  | string => exact List.cons_ne_nil _ _

/-- Only the image of a string differs from its spelling. -/
theorem image_eq (h : Spells cs kind image) (other : kind ≠ .string) : image = cs := by
  cases h with
  | string => exact absurd rfl other
  | _ => rfl

/-- A string is spelled between two quotes of one sort. -/
theorem quoted (h : Spells cs .string image) : ∃ quote body,
    (quote = '"' ∨ quote = '\'') ∧ cs = quote :: (body ++ [quote]) ∧ Quoted quote body image := by
  generalize same : Token.Kind.string = kind at h
  cases h with
  | operator listed =>
    subst same
    exact absurd (List.mem_map_of_mem listed) (by decide : Token.Kind.string ∉
      Lexeme.operators.map Prod.snd)
  | word => exact absurd same.symm (Lexeme.ofWord_ne (by decide) _)
  | integer => cases same
  | float => cases same
  | string hquote quoted => exact ⟨_, _, hquote, rfl, quoted⟩

end Spells

end Lexical

namespace Lexeme

open Text Lexical

variable {e f cs ds fs rest : List Char}

/-- How long an exponent is. -/
theorem exponentLength_append (h : IsExponent e) (ends : f.head?.any Char.isDigit = false) :
    exponentLength (e ++ f) = e.length := by
  cases h with
  | @plain mark ds hmark run =>
    obtain ⟨d, ds, rfl⟩ := List.exists_cons_of_ne_nil run.some
    have digit := run.digits d List.mem_cons_self
    have unsigned : ¬ (d = '+' ∨ d = '-') := by
      rintro (rfl | rfl) <;> cases digit
    have count := Digits.count_append run.digits ends
    rw [List.cons_append] at count
    simp only [List.cons_append, exponentLength, if_pos hmark, if_neg unsigned, count,
      List.length_cons, Nat.succ_ne_zero, if_false, Nat.add_comm 1]
  | @signed mark sign ds hmark hsign run =>
    have count := Digits.count_append run.digits ends
    have some : ds.length ≠ 0 := mt List.length_eq_zero_iff.mp run.some
    simp only [List.cons_append, exponentLength, if_pos hmark, if_pos hsign, count, if_neg some,
      List.length_cons, Nat.add_comm 2]

/-- What is ahead goes on behind an exponent as long as it can be, or begins with none. -/
structure PartsExponent (cs e f : List Char) : Prop where
  parted : cs = e ++ f
  length : exponentLength cs = e.length
  suffix : e = [] ∨ IsExponent e ∧ f.head?.any Char.isDigit = false

theorem exists_exponent (cs : List Char) : ∃ e f, PartsExponent cs e f := by
  have none (h : exponentLength cs = 0) : ∃ e f, PartsExponent cs e f :=
    ⟨[], cs, rfl, h, .inl rfl⟩
  have some {e f : List Char} (h : IsExponent e) (same : cs = e ++ f)
      (ends : f.head?.any Char.isDigit = false) : ∃ e f, PartsExponent cs e f :=
    ⟨e, f, same, same ▸ exponentLength_append h ends, .inr ⟨h, ends⟩⟩
  match cs with
  | [] => exact none rfl
  | [mark] => exact none (by simp [exponentLength])
  | mark :: sign :: tail =>
    by_cases hmark : mark = 'e' ∨ mark = 'E'
    · by_cases hsign : sign = '+' ∨ sign = '-'
      · obtain ⟨ds, f, rfl, digits, ends⟩ := Digits.exists_run tail
        by_cases run : ds = []
        · have count : Digits.count (ds ++ f) = 0 := by
            rw [Digits.count_append digits ends, run, List.length_nil]
          exact none (by simp [exponentLength, hmark, hsign, count])
        · exact some (.signed hmark hsign ⟨run, digits⟩) rfl ends
      · obtain ⟨ds, f, whole, digits, ends⟩ := Digits.exists_run (sign :: tail)
        by_cases run : ds = []
        · have count : Digits.count (sign :: tail) = 0 := by
            rw [whole, Digits.count_append digits ends, run, List.length_nil]
          exact none (by simp [exponentLength, hmark, hsign, count])
        · exact some (.plain hmark ⟨run, digits⟩) (by rw [whole, List.cons_append]) ends
    · exact none (by simp [exponentLength, hmark])

/-- No exponent ahead is longer than the one that is taken. -/
theorem length_le_exponentLength (h : IsExponent e) (f : List Char) :
    e.length ≤ exponentLength (e ++ f) := by
  obtain ⟨ds, rest, rfl, digits, ends⟩ := Digits.exists_run f
  rw [← List.append_assoc, exponentLength_append (h.append digits) ends, List.length_append]
  exact Nat.le_add_right _ _

theorem exponentLength_eq_zero_iff :
    exponentLength cs = 0 ↔ ∀ e, e <+: cs → ¬ IsExponent e := by
  constructor
  · rintro none e ⟨f, rfl⟩ exponent
    have long := length_le_exponentLength exponent f
    exact exponent.ne_nil (List.eq_nil_of_length_eq_zero (by omega))
  · intro none
    obtain ⟨e, f, rfl, length, rfl | ⟨exponent, -⟩⟩ := exists_exponent cs
    · exact length
    · exact absurd exponent (none e (List.prefix_append e f))

section Numbers

variable (digits : ∀ c ∈ ds, c.isDigit)

include digits

/-- How far a number with a point extends. -/
theorem numberExtent_point (tail : List Char) :
    numberExtent (ds ++ '.' :: tail) =
      if namesProperty tail then (.integer, ds.length)
      else (.float, ds.length + 1 + Digits.count tail +
        exponentLength (tail.drop (Digits.count tail))) := by
  have point : ('.' :: tail).head?.any Char.isDigit = false := rfl
  simp only [numberExtent, Digits.count_append digits point, List.drop_left]

theorem numberExtent_pointed (fraction : ∀ c ∈ fs, c.isDigit)
    (ends : rest.head?.any Char.isDigit = false) :
    numberExtent (ds ++ '.' :: (fs ++ rest)) =
      if namesProperty (fs ++ rest) then (.integer, ds.length)
      else (.float, ds.length + 1 + fs.length + exponentLength rest) := by
  rw [numberExtent_point digits, Digits.count_append fraction ends, List.drop_left]

/-- How far a number without a point extends. -/
theorem numberExtent_whole (ends : rest.head?.any Char.isDigit = false)
    (pointless : ∀ tail, rest ≠ '.' :: tail) :
    numberExtent (ds ++ rest) =
      if exponentLength rest = 0 then (.integer, ds.length)
      else (.float, ds.length + exponentLength rest) := by
  simp only [numberExtent, Digits.count_append digits ends, List.drop_left]
  split
  · next none => rw [if_pos none]
  · next some => rw [if_neg some]

end Numbers

/-- A number is spelled as the grammar says, as far as it extends. -/
theorem spells_number {cs : List Char} (h : startsNumber cs) :
    ∃ slice f, cs = slice ++ f ∧ (numberExtent cs).2 = slice.length ∧
      Spells slice (numberExtent cs).1 slice := by
  obtain ⟨ds, rest, rfl, digits, ends⟩ := Digits.exists_run cs
  by_cases point : ∃ tail, rest = '.' :: tail
  · obtain ⟨tail, rfl⟩ := point
    obtain ⟨fs, suffix, rfl, fraction, further⟩ := Digits.exists_run tail
    have some : ds = [] → fs ≠ [] := by
      rintro rfl rfl
      simp [startsNumber, further] at h
    rw [numberExtent_pointed digits fraction further]
    split
    · next property =>
      refine ⟨ds, _, rfl, rfl, .integer ⟨?_, digits⟩⟩
      rintro rfl
      obtain ⟨d, fs, rfl⟩ := List.exists_cons_of_ne_nil (some rfl)
      have digit : (d :: fs ++ suffix).head?.any Char.isDigit := fraction d List.mem_cons_self
      rw [namesProperty_of_digit digit] at property
      cases property
    · obtain ⟨e, f, rfl, length, suffix⟩ := exists_exponent suffix
      refine ⟨ds ++ '.' :: (fs ++ e), f, by simp, ?_,
        .float (.pointed digits fraction some (suffix.imp_right And.left))⟩
      simp only [length, List.length_append, List.length_cons]
      omega
  · have pointless (tail : List Char) : rest ≠ '.' :: tail := fun h => point ⟨tail, h⟩
    have some : ds ≠ [] := by
      rintro rfl
      cases rest with
      | nil => cases h
      | cons c tail =>
        have other : c.isDigit = false := ends
        rw [List.nil_append, startsNumber, other, Bool.false_or, Bool.and_eq_true,
          beq_iff_eq] at h
        exact pointless tail (by rw [h.1])
    rw [numberExtent_whole digits ends pointless]
    split
    · exact ⟨ds, rest, rfl, rfl, .integer ⟨some, digits⟩⟩
    · next exponent =>
      obtain ⟨e, f, rfl, length, suffix⟩ := exists_exponent rest
      refine ⟨ds ++ e, f, (List.append_assoc ds e f).symm, ?_,
        .float (.whole ⟨some, digits⟩ (suffix.resolve_left ?_).1)⟩
      · rw [length, List.length_append]
      · rintro rfl
        exact exponent length

theorem numberExtent_le (h : startsNumber cs) : (numberExtent cs).2 ≤ cs.length := by
  obtain ⟨slice, f, rfl, length, -⟩ := spells_number h
  rw [length, List.length_append]
  exact Nat.le_add_right _ _

section Strings

variable {quote : Char} {source content body text : List Char} {length : Nat} {l : Lexeme}

theorem isEscapable_iff {c : Char} : isEscapable c ↔ c = '\\' ∨ c = '\'' ∨ c = '"' := by
  simp only [isEscapable, Bool.or_eq_true, beq_iff_eq, or_assoc]

/-- What stands between quotes is read to its end, whatever is behind it. -/
theorem stringRest_body (h : Quoted quote body text) :
    stringRest quote source content length (body ++ f) =
      stringRest quote source (text.reverse ++ content) (length + body.length) f := by
  induction h generalizing content length with
  | nil => rfl
  | @plain c body text slash other _ ih =>
    have counted : length + 1 + body.length = length + (c :: body).length := by
      rw [List.length_cons]
      omega
    rw [List.cons_append, stringRest.eq_def]
    simp only [if_neg slash, if_neg other]
    rw [ih, counted, List.reverse_cons, List.append_assoc, List.singleton_append]
  | @escaped c body text escapable _ ih =>
    have allowed : isEscapable c := isEscapable_iff.mpr escapable
    have counted : length + 2 + body.length = length + ('\\' :: c :: body).length := by
      rw [List.length_cons, List.length_cons]
      omega
    rw [List.cons_append, List.cons_append, stringRest.eq_def]
    simp only [if_true, allowed]
    rw [ih, counted, List.reverse_cons, List.append_assoc, List.singleton_append]

/-- A string is read as far as its closing quote. -/
theorem stringRest_quoted (hquote : quote ≠ '\\') (h : Quoted quote body text) :
    stringRest quote source content length (body ++ quote :: f) =
      .ok ⟨.string, content.reverse ++ text, length + body.length + 1⟩ := by
  rw [stringRest_body h, stringRest.eq_def]
  simp only [if_neg hquote, if_true, List.reverse_append, List.reverse_reverse]

/-- What is read as a string is a body between quotes. -/
theorem quoted_of_stringRest {cs : List Char}
    (h : stringRest quote source content length cs = .ok l) :
    ∃ body text f, cs = body ++ quote :: f ∧ quote ≠ '\\' ∧ Quoted quote body text ∧
      l = ⟨.string, content.reverse ++ text, length + body.length + 1⟩ := by
  fun_induction stringRest quote source content length cs with
  | case1 => cases h
  | case2 => cases h
  | case3 content length c rest escapable ih =>
    obtain ⟨body, text, f, rfl, other, quoted, rfl⟩ := ih h
    refine ⟨'\\' :: c :: body, c :: text, f, rfl, other,
      .escaped (isEscapable_iff.mp escapable) quoted, ?_⟩
    simp only [List.reverse_cons, List.append_assoc, List.singleton_append, List.length_cons,
      Lexeme.mk.injEq, true_and]
    omega
  | case4 => cases h
  | case5 content length rest slash =>
    cases h
    exact ⟨[], [], rest, rfl, slash, .nil, by simp⟩
  | case6 content length c rest slash plain ih =>
    obtain ⟨body, text, f, rfl, other, quoted, rfl⟩ := ih h
    refine ⟨c :: body, c :: text, f, rfl, other, .plain slash plain quoted, ?_⟩
    simp only [List.reverse_cons, List.append_assoc, List.singleton_append, List.length_cons,
      Lexeme.mk.injEq, true_and]
    omega

end Strings

/-- What is read inside of a block is spelled as the grammar says. -/
theorem spells_of_ofBlock {c : Char} {rest : List Char} {l : Lexeme}
    (h : ofBlock c rest = .ok l) :
    ∃ slice f, c :: rest = slice ++ f ∧ l.length = slice.length ∧ Spells slice l.kind l.image := by
  cases inBlock_of_ofBlock h with
  | number starts =>
    obtain ⟨slice, f, parted, length, spells⟩ := spells_number starts
    refine ⟨slice, f, parted, length, ?_⟩
    have image : (c :: rest).take slice.length = slice := by rw [parted, List.take_left]
    rwa [verbatim, length, image]
  | @operator spelling kind ahead =>
    obtain ⟨listed, f, parted⟩ := operator?_some ahead
    refine ⟨spelling, f, parted.symm, rfl, ?_⟩
    have image : (c :: rest).take spelling.length = spelling := by rw [← parted, List.take_left]
    rw [verbatim, image]
    exact .operator listed
  | string quote closed =>
    obtain ⟨body, text, f, rfl, -, quoted, rfl⟩ := quoted_of_stringRest closed
    refine ⟨c :: (body ++ [c]), f, by simp, ?_, .string quote quoted⟩
    simp only [List.length_cons, List.length_append, List.length_nil]
    omega
  | word start =>
    refine ⟨_, rest.dropWhile isIdentifierPart, ?_, rfl,
      .word start (List.all_eq_true.mp List.all_takeWhile)⟩
    rw [List.cons_append, List.takeWhile_append_dropWhile]

end Lexeme

end ElTemplate
