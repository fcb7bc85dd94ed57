import ElTemplate.Proofs.Token.Tiling

/-!
# Equivalent spellings

Inside of blocks a token can be spelled in other ways: with other white space before it, with the
sign or the word of its operator, or as a string between the other quotes. The token before it is
not read differently then. It is the longest one that the text begins with, so it depends on how the
text goes on up to white space or a string, and what is respelled has white space around it or is a
string. Only an integer sees farther, past the point of a property.
-/

namespace ElTemplate

open Text
open Scanner (Mode)

namespace Lexeme

variable {slice f f' : List Char} {kind : Token.Kind}

/-- A delimiter is read as it is. -/
theorem length_of_delimiter (start : (delimiter? (slice ++ f)).isSome)
    (lexed : ofText (slice ++ f) = ⟨kind, slice, slice.length⟩) : slice.length = 2 := by
  obtain ⟨kind', start⟩ := Option.isSome_iff_exists.mp start
  rw [ofText, start] at lexed
  exact (congrArg Lexeme.length lexed).symm

/-- Outside of blocks a token is read again in front of another text. A text depends on two
characters behind it. -/
theorem ofText_congr (some : slice ≠ [])
    (lexed : ofText (slice ++ f) = ⟨kind, slice, slice.length⟩)
    (same : kind = .text → f.take 2 = f'.take 2) :
    ofText (slice ++ f') = ⟨kind, slice, slice.length⟩ := by
  by_cases text : kind = .text
  · subst text
    exact (Stands.congr ⟨some, lexed⟩ (same rfl)).2
  · cases start : delimiter? (slice ++ f) with
    | none =>
      rw [ofText, start] at lexed
      exact absurd (congrArg Lexeme.kind lexed).symm text
    | some kind' =>
      have length := length_of_delimiter (Option.isSome_of_eq_some start) lexed
      have again : delimiter? (slice ++ f') = Option.some kind' := by
        rw [← start]
        apply delimiter?_congr
        rw [List.take_left' length, List.take_left' length]
      rw [ofText, start] at lexed
      obtain rfl : kind' = kind := congrArg Lexeme.kind lexed
      simp only [ofText, again, length, verbatim, List.take_left' length]

end Lexeme

namespace Lexical

variable {c d : Char} {cs f f' e slice image : List Char} {kind : Token.Kind}

/-- A character that is no white space and no quote. -/
def Clear (c : Char) : Prop :=
  isBlank c = false ∧ ¬ (c = '"' ∨ c = '\'')

instance : DecidablePred Clear :=
  fun c => inferInstanceAs (Decidable (isBlank c = false ∧ ¬ (c = '"' ∨ c = '\'')))

theorem clear_of_isIdentifierPart (h : isIdentifierPart c) : Clear c := by
  refine ⟨isBlank_of_isIdentifierPart h, ?_⟩
  rintro (rfl | rfl)
  · exact absurd h (by decide)
  · exact absurd h (by decide)

theorem clear_of_isDigit (h : c.isDigit) : Clear c := by
  refine ⟨isBlank_of_isDigit h, ?_⟩
  rintro (rfl | rfl) <;> cases h

theorem IsExponent.clear (h : IsExponent e) : ∀ c ∈ e, Clear c := by
  have mark : ∀ {c}, c = 'e' ∨ c = 'E' → Clear c := by
    rintro c (rfl | rfl) <;> decide
  have sign : ∀ {c}, c = '+' ∨ c = '-' → Clear c := by
    rintro c (rfl | rfl) <;> decide
  cases h with
  | plain hmark run =>
    exact List.forall_mem_cons.mpr ⟨mark hmark, fun c mem => clear_of_isDigit (run.digits c mem)⟩
  | signed hmark hsign run =>
    exact List.forall_mem_cons.mpr ⟨mark hmark, List.forall_mem_cons.mpr
      ⟨sign hsign, fun c mem => clear_of_isDigit (run.digits c mem)⟩⟩

theorem IsFloat.clear (h : IsFloat cs) : ∀ c ∈ cs, Clear c := by
  cases h with
  | pointed wholeDigits fractionDigits _ suffix =>
    refine List.forall_mem_append.mpr ⟨fun c mem => clear_of_isDigit (wholeDigits c mem), ?_⟩
    refine List.forall_mem_cons.mpr ⟨by decide, List.forall_mem_append.mpr
      ⟨fun c mem => clear_of_isDigit (fractionDigits c mem), ?_⟩⟩
    rcases suffix with rfl | exponent
    · exact List.forall_mem_nil _
    · exact exponent.clear
  | whole run suffix =>
    exact List.forall_mem_append.mpr
      ⟨fun c mem => clear_of_isDigit (run.digits c mem), suffix.clear⟩

/-- White space and quotes are in strings only. -/
theorem Spells.clear (h : Spells cs kind image) (other : kind ≠ .string) : ∀ c ∈ cs, Clear c := by
  cases h with
  | operator listed =>
    have clear : ∀ operator ∈ Lexeme.operators, operator.1.all fun c => decide (Clear c) := by
      decide
    exact fun c mem => of_decide_eq_true (List.all_eq_true.mp (clear _ listed) c mem)
  | word start part =>
    exact List.forall_mem_cons.mpr ⟨clear_of_isIdentifierPart (isIdentifierPart_of_start start),
      fun c mem => clear_of_isIdentifierPart (part c mem)⟩
  | integer run => exact fun c mem => clear_of_isDigit (run.digits c mem)
  | float float => exact float.clear
  | string => exact absurd rfl other

/-- No token begins with white space. -/
theorem Spells.head_nonblank (h : Spells cs kind image) :
    ∀ c, cs.head? = some c → isBlank c = false := by
  intro c head
  by_cases string : kind = .string
  · subst string
    obtain ⟨quote, body, hquote, rfl, -⟩ := h.quoted
    obtain rfl : quote = c := Option.some.inj head
    rcases hquote with rfl | rfl <;> decide
  · exact (h.clear string c (List.mem_of_head? head)).1

/-- No string is ahead where other characters begin. -/
theorem Spells.ne_string (h : Spells cs kind image) (ahead : cs <+: slice ++ f) (some : slice ≠ [])
    (clear : ∀ c ∈ slice, Clear c) : kind ≠ .string := by
  rintro rfl
  obtain ⟨quote, body, hquote, rfl, -⟩ := h.quoted
  obtain ⟨c, slice, rfl⟩ := List.exists_cons_of_ne_nil some
  obtain ⟨rfl, -⟩ := List.cons_prefix_cons.mp ahead
  exact (clear quote List.mem_cons_self).2 hquote

/-- The second text goes on like the first one up to its end, up to white space in it, or up to a
string in both. -/
inductive Follow : List Char → List Char → Prop where
  | nil : Follow [] []
  | blank {c : Char} (f f' : List Char) (blank : isBlank c) : Follow f (c :: f')
  | string {quote quote' : Char} (f f' : List Char) (hquote : quote = '"' ∨ quote = '\'')
      (hquote' : quote' = '"' ∨ quote' = '\'') : Follow (quote :: f) (quote' :: f')
  | cons (c : Char) {f f' : List Char} (more : Follow f f') : Follow (c :: f) (c :: f')

namespace Follow

theorem append (h : Follow f f') (cs : List Char) : Follow (cs ++ f) (cs ++ f') := by
  induction cs with
  | nil => exact h
  | cons c cs ih => exact .cons c ih

/-- What the second text begins with, the first one begins with too. -/
theorem prefix_of_clear (h : Follow f f') (ahead : cs <+: f') (clear : ∀ c ∈ cs, Clear c) :
    cs <+: f := by
  induction h generalizing cs with
  | nil => exact ahead
  | blank f f' blank =>
    cases cs with
    | nil => exact List.nil_prefix
    | cons c cs =>
      obtain ⟨rfl, -⟩ := List.cons_prefix_cons.mp ahead
      have nonblank := (clear c List.mem_cons_self).1
      rw [blank] at nonblank
      cases nonblank
  | string f f' _ hquote' =>
    cases cs with
    | nil => exact List.nil_prefix
    | cons c cs =>
      obtain ⟨rfl, -⟩ := List.cons_prefix_cons.mp ahead
      exact absurd hquote' (clear c List.mem_cons_self).2
  | cons d more ih =>
    cases cs with
    | nil => exact List.nil_prefix
    | cons c cs =>
      obtain ⟨rfl, further⟩ := List.cons_prefix_cons.mp ahead
      exact List.cons_prefix_cons.mpr ⟨rfl, ih further (List.forall_mem_cons.mp clear).2⟩

/-- The second text begins like the first one or with white space. -/
theorem cons_cases (h : Follow (c :: f) f') (clear : Clear c) :
    (∃ d g, f' = d :: g ∧ isBlank d) ∨ ∃ g, f' = c :: g ∧ Follow f g := by
  cases h with
  | blank _ f' blank => exact .inl ⟨_, f', rfl, blank⟩
  | string _ _ hquote _ => exact absurd hquote clear.2
  | cons _ more => exact .inr ⟨_, rfl, more⟩

end Follow

/-- What is clear of white space ends before it. -/
theorem length_le_of_blank (ahead : cs <+: slice ++ d :: f) (clear : ∀ c ∈ cs, Clear c)
    (blank : isBlank d) : cs.length ≤ slice.length := by
  by_contra longer
  have further : slice ++ [d] <+: cs := by
    refine List.prefix_of_prefix_length_le ⟨f, List.append_cons slice d f ▸ rfl⟩ ahead ?_
    rw [List.length_append]
    exact Nat.lt_of_not_le longer
  have nonblank := (clear d (further.subset (List.mem_append_right _ List.mem_cons_self))).1
  rw [blank] at nonblank
  cases nonblank

section Stable

variable (munch : Munch (slice ++ f) slice kind image) (follow : Follow f f')

include munch follow

/-- Digits before the point of a property were taken before, if the text goes on alike. -/
theorem Munch.digits_of_follow (points : PointsAtProperty (slice ++ f')) :
    kind = .integer ∧ slice = (slice ++ f').takeWhile Char.isDigit := by
  obtain ⟨ds, c, tail', parted', run, start, plain⟩ := points
  have point : Clear '.' := by decide
  have clear : ∀ d ∈ ds ++ ['.', c], Clear d :=
    List.forall_mem_append.mpr ⟨fun d mem => clear_of_isDigit (run.digits d mem),
      List.forall_mem_cons.mpr ⟨point, List.forall_mem_singleton.mpr
        (clear_of_isIdentifierPart (isIdentifierPart_of_start start))⟩⟩
  have ahead' : ds ++ ['.', c] <+: slice ++ f' := ⟨tail', by rw [parted', List.append_assoc]; rfl⟩
  obtain ⟨tail, parted⟩ := (follow.append slice).prefix_of_clear ahead' clear
  rw [List.append_assoc, List.cons_append, List.singleton_append] at parted
  by_cases points : PointsAtProperty (slice ++ f)
  · obtain ⟨integer, digits⟩ := munch.digits points
    rw [← parted, Digits.takeWhile_append run.digits rfl] at digits
    exact ⟨integer, by rw [parted', Digits.takeWhile_append run.digits rfl, digits]⟩
  · -- Then an exponent was behind the point, and the float up to its end was taken.
    have exponent : ∃ e, e <+: c :: tail ∧ IsExponent e := by
      by_contra none
      exact points ⟨ds, c, tail, parted.symm, run, start, fun e ahead is => none ⟨e, ahead, is⟩⟩
    obtain ⟨e, within, is⟩ := exponent
    have float : IsFloat (ds ++ '.' :: ([] ++ e)) :=
      .pointed run.digits (List.forall_mem_nil _) (fun none => absurd none run.some) (.inr is)
    have ahead : ds ++ '.' :: e <+: slice ++ f := by
      rw [← parted]
      exact (List.prefix_append_right_inj ds).mpr (List.cons_prefix_cons.mpr ⟨rfl, within⟩)
    have long := munch.longest points (.float float) ahead
    have kept : ds ++ '.' :: e <+: slice ++ f' :=
      (List.prefix_of_prefix_length_le ahead (List.prefix_append slice f) long).trans
        (List.prefix_append slice f')
    rw [parted'] at kept
    have behind := (List.cons_prefix_cons.mp ((List.prefix_append_right_inj ds).mp kept)).2
    exact absurd is (plain e behind)

/-- Digits before the point of a property stand before white space or before the point again. -/
theorem Munch.points_of_follow (points : PointsAtProperty (slice ++ f))
    (point : ∀ c rest, f' = '.' :: c :: rest → isBlank c = false) :
    (∃ d g, f' = d :: g ∧ isBlank d) ∨ PointsAtProperty (slice ++ f') := by
  obtain ⟨-, digits⟩ := munch.digits points
  obtain ⟨ds, c, tail, parted, run, start, plain⟩ := points
  rw [parted, Digits.takeWhile_append run.digits rfl] at digits
  subst digits
  obtain rfl : f = '.' :: c :: tail := List.append_cancel_left parted
  have clear : Clear c := clear_of_isIdentifierPart (isIdentifierPart_of_start start)
  rcases follow.cons_cases (by decide) with blank | ⟨g, rfl, more⟩
  · exact .inl blank
  · rcases more.cons_cases clear with ⟨d, g, rfl, blank⟩ | ⟨tail', rfl, behind⟩
    · rw [point d g rfl] at blank
      cases blank
    · exact .inr ⟨slice, c, tail', rfl, run, start, fun e ahead is =>
        plain e (more.prefix_of_clear ahead is.clear) is⟩

/-- A token is read again where the text behind it goes on alike. An integer has no white space
behind the point that stands directly behind it. -/
theorem Munch.congr (other : kind ≠ .string)
    (point : kind = .integer → ∀ c rest, f' = '.' :: c :: rest → isBlank c = false) :
    Munch (slice ++ f') slice kind image where
  spells := munch.spells
  ahead := List.prefix_append slice f'
  digits := munch.digits_of_follow follow
  longest := by
    intro apart slice' kind' image' spells' ahead'
    have other' := spells'.ne_string ahead' munch.spells.ne_nil (munch.spells.clear other)
    have clear' := spells'.clear other'
    by_cases points : PointsAtProperty (slice ++ f)
    · have integer := (munch.digits points).1
      rcases munch.points_of_follow follow points (point integer) with
        ⟨d, g, rfl, blank⟩ | points'
      · exact length_le_of_blank ahead' clear' blank
      · exact absurd points' apart
    · exact munch.longest points spells' ((follow.append slice).prefix_of_clear ahead' clear')

end Stable

/-- The operators with two spellings: a word and a sign. -/
def aliases : List (Token.Kind × List Char × List Char) :=
  [(.and, ['a', 'n', 'd'], ['&', '&']), (.or, ['o', 'r'], ['|', '|']),
   (.not, ['n', 'o', 't'], ['!']), (.div, ['d', 'i', 'v'], ['/']), (.mod, ['m', 'o', 'd'], ['%']),
   (.eq, ['e', 'q'], ['=', '=']), (.ne, ['n', 'e'], ['!', '=']), (.lt, ['l', 't'], ['<']),
   (.gt, ['g', 't'], ['>']), (.le, ['l', 'e'], ['<', '=']), (.ge, ['g', 'e'], ['>', '='])]

/-- Both the word and the sign spell the operator. -/
theorem spells_of_alias {word sign : List Char} (listed : (kind, word, sign) ∈ aliases)
    (either : slice = word ∨ slice = sign) : Spells slice kind slice := by
  rcases either with rfl | rfl
  · have words : ∀ a ∈ aliases, a.2.1.head?.any isIdentifierStart ∧
        a.2.1.tail.all isIdentifierPart ∧ Token.Kind.ofWord (String.ofList a.2.1) = a.1 := by
      decide
    obtain ⟨start, part, word⟩ := words _ listed
    cases slice with
    | nil => cases start
    | cons c cs =>
      obtain rfl : Token.Kind.ofWord (String.ofList (c :: cs)) = kind := word
      have part : ∀ d ∈ cs, isIdentifierPart d := List.all_eq_true.mp part
      exact .word start part
  · have signs : ∀ a ∈ aliases, (a.2.2, a.1) ∈ Lexeme.operators := by decide
    exact .operator (signs _ listed)

/-- Before white space the word is read like the sign. -/
theorem munch_of_alias {word sign : List Char} (listed : (kind, word, sign) ∈ aliases)
    (either : slice = word ∨ slice = sign) (blank : isBlank d) :
    Munch (slice ++ d :: f) slice kind slice := by
  have spells := spells_of_alias listed either
  have other : kind ≠ .string := (by decide : ∀ a ∈ aliases, a.1 ≠ .string) _ listed
  have head : slice.head?.any Char.isDigit = false := by
    have heads : ∀ a ∈ aliases, a.2.1.head?.any Char.isDigit = false ∧
        a.2.2.head?.any Char.isDigit = false := by decide
    rcases either with rfl | rfl
    · exact (heads _ listed).1
    · exact (heads _ listed).2
  refine ⟨spells, List.prefix_append _ _, fun _ _ _ _ spells' ahead' => ?_, fun points => ?_⟩
  · have other' := spells'.ne_string ahead' spells.ne_nil (spells.clear other)
    exact length_le_of_blank ahead' (spells'.clear other') blank
  · obtain ⟨ds, c, tail, parted, run, -, -⟩ := points
    obtain ⟨digit, ds, rfl⟩ := List.exists_cons_of_ne_nil run.some
    obtain ⟨first, cs, rfl⟩ := List.exists_cons_of_ne_nil spells.ne_nil
    obtain rfl : first = digit := (List.cons.inj parted).1
    have isDigit : first.isDigit := run.digits first List.mem_cons_self
    cases isDigit.symm.trans head

/-- A string is read whatever stands behind it. -/
theorem munch_quoted {quote : Char} {body content : List Char}
    (hquote : quote = '"' ∨ quote = '\'') (quoted : Quoted quote body content) (f : List Char) :
    Munch (quote :: (body ++ [quote]) ++ f) (quote :: (body ++ [quote])) .string content := by
  have lexed := Lexeme.ofBlock_quoted (f := f) hquote quoted
  obtain ⟨slice, length, munch⟩ := Lexeme.munch_of_ofBlock lexed
  have whole : quote :: (body ++ [quote]) ++ f = quote :: (body ++ quote :: f) := by simp
  rw [whole]
  have same : slice.length = (quote :: (body ++ [quote])).length := by
    rw [← length]
    simp
  obtain rfl : slice = quote :: (body ++ [quote]) := prefix_unique munch.ahead ⟨f, whole⟩ same
  exact munch

end Lexical

/-- Tokens of one kind and image are alike. -/
theorem Token.Alike.of_image {t u : Token} (kind : t.kind = u.kind) (image : t.image = u.image) :
    t.Alike u :=
  ⟨kind, fun _ => image, by rw [Literal.ofToken?, Literal.ofToken?, kind, image]⟩

namespace Tile

/-- White space that may stand before the token: there is some if there was some. -/
structure Respaced (tile : Tile) (gap : List Char) : Prop where
  blank : ∀ c ∈ gap, isBlank c
  kept : tile.gap ≠ [] → gap ≠ []

/-- The characters that may spell the token again, behind white space and in front of a text: the
same ones, the other spelling of an operator between white space, or another spelling of a string.
No white space comes behind a point that stands directly behind an integer. -/
inductive Respelled (tile : Tile) (gap : List Char) : List Char → List Char → Prop where
  | same {f : List Char} (point : tile.token.kind = .integer →
      ∀ c rest, f = '.' :: c :: rest → isBlank c = false) : Respelled tile gap tile.slice f
  | operator {word sign slice f : List Char} {c : Char}
      (listed : (tile.token.kind, word, sign) ∈ Lexical.aliases)
      (either : slice = word ∨ slice = sign) (before : gap ≠ []) (behind : isBlank c) :
      Respelled tile gap slice (c :: f)
  | string {quote : Char} {body f : List Char} (kind : tile.token.kind = .string)
      (hquote : quote = '"' ∨ quote = '\'')
      (quoted : Lexical.Quoted quote body tile.token.image.toList) :
      Respelled tile gap (quote :: (body ++ [quote])) f

end Tile

/-- The characters spell the tokens of the tiles again, with equivalent spellings inside of blocks
and the same ones outside. -/
inductive Respells : Mode → List Tile → List Char → Prop where
  | nil {mode : Mode} : Respells mode [] []
  | text {tile : Tile} {tiles : List Tile} {f : List Char}
      (further : Respells (Mode.text.after tile.token.kind) tiles f) :
      Respells .text (tile :: tiles) (tile.slice ++ f)
  | block {tile : Tile} {tiles : List Tile} {gap slice f : List Char}
      (spaced : tile.Respaced gap) (spelled : tile.Respelled gap slice f)
      (further : Respells (Mode.block.after tile.token.kind) tiles f) :
      Respells .block (tile :: tiles) (gap ++ (slice ++ f))

namespace Scanner

open Lexical

variable {s s₁ s' : Scanner} {tile : Tile} {tiles : List Tile} {cs f gap slice : List Char}

/-- A token that is respelled is read again. -/
theorem Moves.munch_respelled (moves : Moves s tile s₁) (inside : s.mode = .block)
    (spelled : tile.Respelled gap slice f) (follow : Follow s₁.rest f) :
    ∃ image, Munch (slice ++ f) slice tile.token.kind image ∧
      ∀ p, tile.token.Alike ⟨tile.token.kind, String.ofList image, p⟩ := by
  have image (p : Nat) : tile.token.Alike
      ⟨tile.token.kind, String.ofList tile.token.image.toList, p⟩ :=
    .of_image rfl String.ofList_toList.symm
  have munch := moves.munch inside
  cases spelled with
  | same point =>
    by_cases string : tile.token.kind = .string
    · rw [string] at munch
      obtain ⟨quote, body, hquote, slice, quoted⟩ := munch.spells.quoted
      rw [slice]
      exact ⟨_, string ▸ munch_quoted hquote quoted f, image⟩
    · exact ⟨_, munch.congr follow string point, image⟩
  | operator listed either _ behind =>
    have plain := (by decide : ∀ a ∈ aliases, a.1 ∉ Token.Kind.varied) _ listed
    exact ⟨slice, munch_of_alias listed either behind, fun p => .of_kind rfl plain⟩
  | string string hquote quoted =>
    exact ⟨_, string ▸ munch_quoted hquote quoted f, image⟩

/-- A token that is to be read behind white space is the next one. -/
theorem next_of_munch {kind : Token.Kind} {image : List Char} (blank : ∀ c ∈ gap, isBlank c)
    (munch : Munch (slice ++ f) slice kind image) (p : Nat) :
    next ⟨.block, gap ++ (slice ++ f), p⟩ =
      (.ok ⟨kind, String.ofList image, p + gap.length⟩,
        ⟨Mode.block.after kind, f, p + gap.length + slice.length⟩) := by
  have nonblank := munch.spells.head_nonblank
  have behind : (slice ++ f).drop slice.length = f := List.drop_left
  obtain ⟨c, cs, rfl⟩ := List.exists_cons_of_ne_nil munch.spells.ne_nil
  rw [List.cons_append] at munch behind ⊢
  rw [next_blanks blank, next_of_ofBlock (nonblank c rfl) (Lexeme.ofBlock_of_munch munch), behind]

/-- The respelled text goes on like the text before. -/
theorem Lays.follow (lays : Lays s tiles s') (ended : s'.rest = [])
    (respells : Respells s.mode tiles cs) : Follow s.rest cs := by
  induction lays generalizing cs with
  | @nil s =>
    generalize s.mode = m at respells
    cases respells
    rw [ended]
    exact .nil
  | @cons s s₁ s' tile tiles moves _ ih =>
    have fits := moves.fits
    have mode := moves.mode
    rw [moves.parted]
    generalize s.mode = m at respells fits mode
    cases respells with
    | text further =>
      rw [fits.tight rfl, List.nil_append]
      exact (ih ended (mode ▸ further)).append tile.slice
    | @block _ _ gap slice f spaced spelled further =>
      have more := ih ended (mode ▸ further)
      cases gap with
      | cons c gap => exact .blank _ _ (spaced.blank c List.mem_cons_self)
      | nil =>
        have tight : tile.gap = [] := by
          by_contra some
          exact spaced.kept some rfl
        rw [tight, List.nil_append, List.nil_append]
        cases spelled with
        | same => exact more.append tile.slice
        | operator _ _ before _ => exact absurd rfl before
        | string string hquote _ =>
          obtain ⟨quote, body, hquote', slice⟩ := fits.quoted string
          rw [slice]
          exact .string _ _ hquote' hquote

/-- Behind a text the respelled text begins with the same delimiter, or ends too. -/
theorem Lays.take_two (lays : Lays s tiles s') (ended : s'.rest = []) (outside : s.mode = .text)
    (stop : s.rest = [] ∨ (Lexeme.delimiter? s.rest).isSome)
    (respells : Respells s.mode tiles cs) : s.rest.take 2 = cs.take 2 := by
  rw [outside] at respells
  cases lays with
  | nil =>
    cases respells
    rw [ended]
  | @cons _ s₁ _ tile tiles moves _ =>
    cases respells with
    | text further =>
      have whole : s.rest = tile.slice ++ s₁.rest := by
        rw [moves.parted, moves.fits.tight outside, List.nil_append]
      rcases stop with none | some
      · rw [none] at whole
        exact absurd (List.append_eq_nil_iff.mp whole.symm).1 moves.fits.some
      · have length := Lexeme.length_of_delimiter (whole ▸ some) (moves.text outside)
        rw [whole, List.take_left' length, List.take_left' length]

/-- Respelled tokens are scanned as tokens like them. -/
theorem Lays.emits (lays : Lays s tiles s') (ended : s'.rest = [])
    (respells : Respells s.mode tiles cs) (p : Nat) :
    ∃ us q, Emits ⟨s.mode, cs, p⟩ us ⟨s'.mode, [], q⟩ ∧
      List.Forall₂ Token.Alike (tiles.map Tile.token) us := by
  induction lays generalizing cs p with
  | @nil s =>
    generalize s.mode = m at respells
    cases respells
    exact ⟨[], p, .nil, .nil⟩
  | @cons s s₁ s' tile tiles moves further ih =>
    have mode := moves.mode
    cases inside : s.mode with
    | text =>
      rw [inside] at respells mode
      cases respells with
      | @text _ _ f more =>
        have same : tile.token.kind = .text → s₁.rest.take 2 = f.take 2 := by
          intro text
          obtain ⟨outside, -, stop⟩ := next_text moves.next text
          exact further.take_two ended outside stop (mode ▸ more)
        have lexed := Lexeme.ofText_congr moves.fits.some (moves.text inside) same
        have step := next_of_ofText moves.fits.some lexed p
        obtain ⟨us, q, emits, alike⟩ := ih ended (mode ▸ more) (p + tile.slice.length)
        rw [mode] at emits
        have other : tile.token.kind ≠ .string := fun string =>
          absurd (string ▸ moves.fits.outside.mpr inside) (by decide)
        have image : tile.token.image = String.ofList tile.slice := by
          rw [← moves.fits.verbatim other, String.ofList_toList]
        exact ⟨_, q, .cons step emits, .cons (.of_image rfl image) alike⟩
    | block =>
      rw [inside] at respells mode
      cases respells with
      | @block _ _ gap slice f spaced spelled more =>
        have follow := further.follow ended (mode ▸ more)
        obtain ⟨image, munch, same⟩ := moves.munch_respelled inside spelled follow
        have step := next_of_munch spaced.blank munch p
        obtain ⟨us, q, emits, alike⟩ := ih ended (mode ▸ more) (p + gap.length + slice.length)
        rw [mode] at emits
        exact ⟨_, q, .cons step emits, .cons (same _) alike⟩

end Scanner

end ElTemplate
