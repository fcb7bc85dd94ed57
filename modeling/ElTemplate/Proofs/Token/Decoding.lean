import ElTemplate.Proofs.Node.Inline
import ElTemplate.Proofs.Token.Text

/-!
# Decoding canonical text

The scanner does not read every canonical text as it was meant, but the text says what was meant. A
point behind another token is that of a property and takes the name behind it along, digits are an
integer unless a point and a digit follow, and the word `Infinity` is the infinite number unless a
parenthesis or a colon makes it part of a call. Everything else is decoded as it is scanned. Each
step depends on the characters ahead alone, so that a text is decoded in one way only.
-/

namespace ElTemplate

open Text
open Scanner (Mode)

namespace Decoding

/-- Whether the word `Infinity` is ahead, but neither as the name nor as the qualifier of a call. -/
def startsInfinity (cs : List Char) : Bool :=
  cs.takeWhile isIdentifierPart == "Infinity".toList &&
    !(cs.dropWhile isIdentifierPart).head?.any fun c => c == '(' || c == ':'

/-- Whether the digits ahead go on with a point and a digit. -/
def startsDecimal (cs : List Char) : Bool :=
  match cs.dropWhile Char.isDigit with
  | '.' :: tail => tail.head?.any Char.isDigit
  | _ => false

/-- The token of a lexeme, wherever it stands. -/
def token (l : Lexeme) : Token :=
  ⟨l.kind, String.ofList l.image, 0⟩

/-- A token that is read as the infinite number. -/
def infinity : Token :=
  ⟨.float, "1e999", 0⟩

/-- The tokens that the text begins with, and what is behind them. A blank gives no token, the point
of a property two. -/
def step : Mode → List Char → Option (List Token × Mode × List Char)
  | _, [] => none
  | .text, c :: cs =>
    let l := Lexeme.ofText (c :: cs)
    some ([token l], Mode.text.after l.kind, (c :: cs).drop l.length)
  | .block, c :: cs =>
    if c = ' ' then some ([], .block, cs)
    -- No float begins with a point here, since all are spelled with digits in front of it.
    else if c = '.' then
      let name := cs.takeWhile isIdentifierPart
      some ([⟨.dot, ".", 0⟩, ⟨.identifier, String.ofList name, 0⟩], .block,
        cs.dropWhile isIdentifierPart)
    else if startsInfinity (c :: cs) then
      some ([infinity], .block, (c :: cs).dropWhile isIdentifierPart)
    -- A scanner takes the point behind digits along in any case, and an exponent as well.
    else if c.isDigit && !startsDecimal (c :: cs) then
      let digits := (c :: cs).takeWhile Char.isDigit
      some ([⟨.integer, String.ofList digits, 0⟩], .block, (c :: cs).dropWhile Char.isDigit)
    else
      match Lexeme.ofBlock c cs with
      | .ok l => some ([token l], Mode.block.after l.kind, (c :: cs).drop l.length)
      | .error _ => none

end Decoding

open Decoding

/-- What stands directly behind the text of a node. Only behind an access it begins with a
parenthesis, and it never begins with a colon or with a point and a digit. -/
structure Closes (access : Prop) (f : List Char) : Prop where
  breaks : Lexeme.Breaks f
  colon : f.head? ≠ some ':'
  paren : f.head? = some '(' → access
  point : ∀ tail, f = '.' :: tail → tail.head?.any Char.isDigit = false

namespace Closes

variable {access other : Prop} {c : Char} {f : List Char}

/-- The characters that can stand behind every node, whatever goes on behind them. -/
def closers : List Char := [' ', ')', ']', '[', '\x7d', ',']

theorem of_mem (h : c ∈ closers) : Closes access (c :: f) := by
  have spec : c ∈ Lexeme.breakers ∧ c ≠ ':' ∧ c ≠ '(' ∧ c ≠ '.' := by
    simp only [closers, List.mem_cons, List.not_mem_nil, or_false] at h
    rcases h with rfl | rfl | rfl | rfl | rfl | rfl <;> decide
  obtain ⟨breaker, colon, paren, point⟩ := spec
  refine ⟨⟨c, f, rfl, breaker⟩, ?_, ?_, ?_⟩
  · exact fun same => colon (Option.some.inj same)
  · exact fun same => absurd (Option.some.inj same) paren
  · exact fun _ same => absurd (List.cons.inj same).1 point

theorem imp (h : Closes access f) (weaker : access → other) : Closes other f :=
  ⟨h.breaks, h.colon, fun same => weaker (h.paren same), h.point⟩

end Closes

/-- The text is decoded as the tokens up to some point. -/
inductive Decodes : Mode → List Char → List Token → Mode → List Char → Prop where
  | nil {mode : Mode} {cs : List Char} : Decodes mode cs [] mode cs
  | step {mode mode₁ mode' : Mode} {cs cs₁ cs' : List Char} {ts us : List Token}
      (first : step mode cs = some (ts, mode₁, cs₁)) (further : Decodes mode₁ cs₁ us mode' cs') :
      Decodes mode cs (ts ++ us) mode' cs'

namespace Decodes

variable {mode mode₁ mode' : Mode} {c : Char} {cs cs₁ cs' ds f : List Char} {ts us : List Token}
  {l : Lexeme}

theorem single (h : Decoding.step mode cs = some (ts, mode', cs')) :
    Decodes mode cs ts mode' cs' := by
  have all := Decodes.step h .nil
  rwa [List.append_nil] at all

theorem append (first : Decodes mode cs ts mode₁ cs₁) (last : Decodes mode₁ cs₁ us mode' cs') :
    Decodes mode cs (ts ++ us) mode' cs' := by
  induction first with
  | nil => exact last
  | step first _ ih =>
    rw [List.append_assoc]
    exact .step first (ih last)

/-- A whole text is decoded in one way only. -/
theorem unique (first : Decodes mode cs ts mode' []) (second : Decodes mode cs us mode' []) :
    ts = us := by
  have stops : ∀ mode, Decoding.step mode [] = none := fun mode => by cases mode <;> rfl
  generalize ended : ([] : List Char) = rest at first
  induction first generalizing us with
  | nil =>
    cases ended
    cases second with
    | nil => rfl
    | step next _ => cases (stops _).symm.trans next
  | step next _ ih =>
    cases ended
    cases second with
    | nil => cases (stops _).symm.trans next
    | step next' further =>
      cases next.symm.trans next'
      rw [ih further rfl]

/-- A space is passed over. -/
theorem blank (further : Decodes .block f ts mode' cs') :
    Decodes .block (' ' :: f) ts mode' cs' := by
  have first : Decodes .block (' ' :: f) [] .block f := single rfl
  exact first.append further

theorem startsInfinity_of_ne (h : c ≠ 'I') : startsInfinity (c :: cs) = false := by
  have other : (c :: cs).takeWhile isIdentifierPart ≠ "Infinity".toList := by
    intro same
    rw [List.takeWhile_cons] at same
    split at same
    · exact h (List.cons.inj same).1
    · cases same
  rw [startsInfinity, beq_eq_false_iff_ne.mpr other, Bool.false_and]

/-- What no other rule is for is decoded as it is scanned. -/
theorem lexeme (lexed : Lexeme.ofBlock c (cs ++ f) = .ok l) (length : l.length = (c :: cs).length)
    (blank : c ≠ ' ') (point : c ≠ '.') (other : startsInfinity (c :: (cs ++ f)) = false)
    (integer : c.isDigit → startsDecimal (c :: (cs ++ f))) :
    Decodes .block (c :: cs ++ f) [token l] (Mode.block.after l.kind) f := by
  have behind : (c :: (cs ++ f)).drop l.length = f := by
    rw [length, ← List.cons_append, List.drop_left]
  have float : (c.isDigit && !startsDecimal (c :: (cs ++ f))) = false := by
    cases digit : c.isDigit with
    | false => rfl
    | true => rw [integer digit]; rfl
  apply single
  rw [List.cons_append, Decoding.step]
  simp only [blank, point, other, float, lexed, behind, if_false, Bool.false_eq_true]

theorem binary (op : BinaryOp) : Decodes .block (op.spelling.toList ++ ' ' :: f)
    [⟨op.kind, op.spelling, 0⟩] .block (' ' :: f) := by
  cases op <;> exact single rfl

theorem unary (op : UnaryOp) : Decodes .block (op.spelling.toList ++ ' ' :: f)
    [⟨op.kind, op.spelling, 0⟩] .block (' ' :: f) := by
  cases op <;> exact single rfl

theorem mark {k : Token.Kind} (h : (c, k) ∈ Scanner.Scans.marks)
    (further : Decodes (Mode.block.after k) f ts mode' cs') :
    Decodes .block (c :: f) (⟨k, String.ofList [c], 0⟩ :: ts) mode' cs' := by
  have first : Decodes .block (c :: f) [⟨k, String.ofList [c], 0⟩] (Mode.block.after k) f := by
    simp only [Scanner.Scans.marks, List.mem_cons, Prod.mk.injEq, List.not_mem_nil, or_false] at h
    rcases h with h | h | h | h | h | h | h | h <;> obtain ⟨rfl, rfl⟩ := h <;> exact single rfl
  exact first.append further

theorem closing (f : List Char) : Decodes .block (')' :: f) [⟨.rightParen, ")", 0⟩] .block f :=
  .mark (by decide) .nil

section Words

variable (start : isIdentifierStart c) (part : ∀ d ∈ cs, isIdentifierPart d)
  (breaks : Lexeme.Breaks f)

include start part breaks

theorem span_word : (c :: cs ++ f).takeWhile isIdentifierPart = c :: cs ∧
    (c :: cs ++ f).dropWhile isIdentifierPart = f := by
  obtain ⟨b, rest, rfl, member⟩ := breaks
  have other : ¬ isIdentifierPart b := by simp [(Lexeme.breaker_spec member).1]
  have all : ∀ d ∈ c :: cs, isIdentifierPart d :=
    List.forall_mem_cons.mpr ⟨isIdentifierPart_of_start start, part⟩
  rw [List.takeWhile_append_of_pos all, List.takeWhile_cons_of_neg other, List.append_nil,
    List.dropWhile_append_of_pos all, List.dropWhile_cons_of_neg other]
  exact ⟨rfl, rfl⟩

theorem startsInfinity_word : startsInfinity (c :: cs ++ f) ↔
    c :: cs = "Infinity".toList ∧ f.head? ≠ some '(' ∧ f.head? ≠ some ':' := by
  obtain ⟨word, behind⟩ := span_word start part breaks
  rw [startsInfinity, word, behind]
  cases f with
  | nil => simp
  | cons b rest => simp

/-- A word that is no variable called `Infinity` is decoded as it is scanned. -/
theorem word (plain : c :: cs = "Infinity".toList → f.head? = some '(' ∨ f.head? = some ':')
    (stays : Mode.block.after (.ofWord (String.ofList (c :: cs))) = .block) :
    Decodes .block (c :: cs ++ f)
      [⟨.ofWord (String.ofList (c :: cs)), String.ofList (c :: cs), 0⟩] .block f := by
  have digit : c.isDigit = false := (Lexeme.start_spec start).1
  have nonblank : c ≠ ' ' := by
    rintro rfl
    exact absurd start (by decide)
  have other : startsInfinity (c :: (cs ++ f)) = false := by
    rw [← List.cons_append, Bool.eq_false_iff, Ne, startsInfinity_word start part breaks]
    rintro ⟨same, call, qualifier⟩
    rcases plain same with found | found
    · exact call found
    · exact qualifier found
  have decoded := lexeme (Lexeme.ofBlock_word start part breaks) rfl nonblank
    (Lexeme.start_spec start).2.2.1 other (by simp [digit])
  rwa [stays] at decoded

end Words

section Names

variable {name : String} (regular : Token.Regular .identifier name.toList)
  (breaks : Lexeme.Breaks f)

include regular breaks

theorem identifier (plain : name = "Infinity" → f.head? = some '(' ∨ f.head? = some ':') :
    Decodes .block (name.toList ++ f) [⟨.identifier, name, 0⟩] .block f := by
  obtain ⟨c, cs, image, start, part, named⟩ := regular
  rw [image] at named
  have decoded := word start part breaks (fun same => plain ?_) (by rw [named]; rfl)
  · rwa [named, ← image, String.ofList_toList] at decoded
  · rw [← String.toList_inj, image, same]

theorem property :
    Decodes .block ('.' :: name.toList ++ f) [⟨.dot, ".", 0⟩, ⟨.identifier, name, 0⟩] .block f := by
  obtain ⟨c, cs, image, start, part, -⟩ := regular
  obtain ⟨word, behind⟩ := span_word start part breaks
  have next : Decoding.step .block ('.' :: (c :: cs ++ f)) =
      some ([⟨.dot, ".", 0⟩, ⟨.identifier, String.ofList (c :: cs), 0⟩], .block, f) := by
    rw [Decoding.step, word, behind]
    rfl
  rw [← image, String.ofList_toList] at next
  exact single next

end Names

/-- The word by itself is the infinite number. -/
theorem infinity (breaks : Lexeme.Breaks f) (call : f.head? ≠ some '(')
    (qualifier : f.head? ≠ some ':') :
    Decodes .block ("Infinity".toList ++ f) [Decoding.infinity] .block f := by
  have start : isIdentifierStart 'I' := by decide
  have part : ∀ d ∈ "nfinity".toList, isIdentifierPart d := List.all_eq_true.mp (by decide)
  have starts := (startsInfinity_word start part breaks).mpr ⟨rfl, call, qualifier⟩
  have behind := (span_word start part breaks).2
  have next : Decoding.step .block ('I' :: ("nfinity".toList ++ f)) =
      some ([Decoding.infinity], .block, f) := by
    rw [Decoding.step, ← List.cons_append, behind, starts]
    rfl
  exact single next

theorem digit_ne (digit : c.isDigit) : c ≠ ' ' ∧ c ≠ '.' ∧ c ≠ 'I' := by
  refine ⟨?_, ?_, ?_⟩ <;> rintro rfl <;> exact absurd digit (by decide)

/-- Digits are decoded as an integer before a point that no digit follows, too. -/
theorem integer (some : ds ≠ []) (digits : ∀ d ∈ ds, d.isDigit) (breaks : Lexeme.Breaks f)
    (point : ∀ tail, f = '.' :: tail → tail.head?.any Char.isDigit = false) :
    Decodes .block (ds ++ f) [⟨.integer, String.ofList ds, 0⟩] .block f := by
  have taken := Digits.takeWhile_append digits breaks.endsNumber.not_digit
  have behind := Digits.dropWhile_append digits breaks.endsNumber.not_digit
  have whole : startsDecimal (ds ++ f) = false := by
    rw [startsDecimal, behind]
    split
    · next tail => exact point tail rfl
    · rfl
  cases ds with
  | nil => exact absurd rfl some
  | cons c cs =>
    have digit := digits c (List.mem_cons_self ..)
    obtain ⟨blank, point, word⟩ := digit_ne digit
    have next : Decoding.step .block (c :: (cs ++ f)) =
        Option.some ([⟨.integer, String.ofList (c :: cs), 0⟩], .block, f) := by
      rw [Decoding.step, if_neg blank, if_neg point, startsInfinity_of_ne word, ← List.cons_append,
        taken, behind, whole, digit]
      rfl
    exact single next

theorem float {whole fraction : List Char} {x : Binary64}
    (decimal : Binary64.Decimal whole fraction x) (breaks : Lexeme.Breaks f) :
    Decodes .block (whole ++ '.' :: fraction ++ f)
      [⟨.float, String.ofList (whole ++ '.' :: fraction), 0⟩] .block f := by
  have ends : ('.' :: (fraction ++ f)).head?.any Char.isDigit = false := rfl
  have behind := Digits.dropWhile_append decimal.whole_digits ends
  have goesOn : (fraction ++ f).head?.any Char.isDigit := by
    cases fraction with
    | nil => exact absurd rfl decimal.fraction_ne_nil
    | cons d ds => exact decimal.fraction_digits d (List.mem_cons_self ..)
  have starts : startsDecimal (whole ++ '.' :: fraction ++ f) := by
    rw [startsDecimal, List.append_assoc, List.cons_append, behind]
    exact goesOn
  have number := Lexeme.startsNumber_digits (f := '.' :: fraction ++ f) decimal.whole_digits
    decimal.whole_ne_nil
  have extent := breaks.endsNumber.numberExtent_float decimal.whole_digits
    ⟨decimal.fraction_ne_nil, decimal.fraction_digits⟩
  have digits := decimal.whole_digits
  cases whole with
  | nil => exact absurd rfl decimal.whole_ne_nil
  | cons c cs =>
    obtain ⟨blank, point, word⟩ := digit_ne (digits c (List.mem_cons_self ..))
    rw [← List.append_assoc] at number
    rw [List.cons_append] at number extent starts ⊢
    exact lexeme (Lexeme.ofBlock_extent number extent) rfl blank point (startsInfinity_of_ne word)
      fun _ => starts

theorem string (content : String) : Decodes .block (Literal.quote content.toList ++ f)
    [⟨.string, content, 0⟩] .block f := by
  have lexed : Lexeme.ofBlock '\'' (Literal.escapeQuoted content.toList ++ ['\''] ++ f) =
      .ok ⟨.string, content.toList, (Literal.quote content.toList).length⟩ := by
    rw [List.append_assoc]
    exact Lexeme.ofBlock_quote content.toList
  have decoded := lexeme lexed rfl (by decide) (by decide) (startsInfinity_of_ne (by decide)) nofun
  rwa [token, String.ofList_toList] at decoded

/-- A reserved word is decoded as it is scanned. -/
theorem reserved {spelling : String} {k : Token.Kind}
    (h : Scanner.Scans.IsReserved spelling k) (breaks : Lexeme.Breaks f) :
    Decodes .block (spelling.toList ++ f) [⟨k, spelling, 0⟩] .block f := by
  obtain ⟨c, cs, spelled, start, part, named, plain, stays⟩ := h
  have other : c :: cs ≠ "Infinity".toList := by
    intro same
    rw [same] at named
    cases named
    exact absurd plain (by decide)
  have decoded := word start (List.all_eq_true.mp part) breaks (fun same => absurd same other)
    (by rw [named, stays])
  rwa [named, ← spelled, String.ofList_toList] at decoded

/-- A literal is decoded as a token that gives the same literal. -/
theorem literal {t : Token} {value : Literal} (hvalue : Literal.ofToken? t = some (.ok value))
    (regular : Token.Regular t.kind t.image.toList) :
    ∃ u, u.kind = t.kind ∧ Literal.ofToken? u = some (.ok value) ∧
      ∀ f, Closes False f → Decodes .block (value.spelling.toList ++ f) [u] .block f := by
  obtain ⟨k, image, position⟩ := t
  rw [Literal.ofToken?.eq_def] at hvalue
  cases k with
  | integer =>
    cases hvalue
    obtain ⟨ds, spelled, some, run, same⟩ := Literal.spelling_ofDigits regular.2
    refine ⟨⟨.integer, String.ofList ds, 0⟩, rfl, ?_, fun f closes => ?_⟩
    · simp only [Literal.ofToken?, String.toList_ofList, same]
    · rw [spelled, String.toList_ofList]
      exact integer some run closes.breaks closes.point
  | float =>
    simp only at hvalue
    split at hvalue
    · next x read =>
      cases hvalue
      obtain ⟨unsigned, finite | infinite⟩ := Binary64.unsigned_of_read regular.1 read
      · obtain ⟨whole, fraction, spelled, decimal⟩ := Binary64.spell_spec unsigned finite
        refine ⟨⟨.float, String.ofList (whole ++ '.' :: fraction), 0⟩, rfl, ?_,
          fun f closes => ?_⟩
        · simp only [Literal.ofToken?, String.toList_ofList, decimal.read?]
        · rw [Literal.spelling, spelled, String.toList_ofList]
          exact float decimal closes.breaks
      · cases Binary64.eq_infinity unsigned infinite
        exact ⟨Decoding.infinity, rfl, rfl,
          fun f closes => infinity closes.breaks closes.paren closes.colon⟩
    · cases hvalue
  | string =>
    cases hvalue
    refine ⟨⟨.string, image, 0⟩, rfl, rfl, fun f _ => ?_⟩
    rw [Literal.spelling, String.toList_ofList]
    exact string image
  | trueWord =>
    cases hvalue
    have word : Scanner.Scans.IsReserved (Literal.boolean true).spelling .trueWord :=
      ⟨_, _, rfl, by decide, by decide, rfl, by decide, rfl⟩
    exact ⟨⟨.trueWord, _, 0⟩, rfl, rfl, fun f closes => reserved word closes.breaks⟩
  | falseWord =>
    cases hvalue
    have word : Scanner.Scans.IsReserved (Literal.boolean false).spelling .falseWord :=
      ⟨_, _, rfl, by decide, by decide, rfl, by decide, rfl⟩
    exact ⟨⟨.falseWord, _, 0⟩, rfl, rfl, fun f closes => reserved word closes.breaks⟩
  | nullWord =>
    cases hvalue
    have word : Scanner.Scans.IsReserved Literal.null.spelling .nullWord :=
      ⟨_, _, rfl, by decide, by decide, rfl, by decide, rfl⟩
    exact ⟨⟨.nullWord, _, 0⟩, rfl, rfl, fun f closes => reserved word closes.breaks⟩
  | _ => cases hvalue

/-- A text is decoded where it stands. -/
theorem text {raw : String} (stands : Lexeme.Stands raw.toList f) :
    Decodes .text (raw.toList ++ f) [⟨.text, raw, 0⟩] .text f := by
  obtain ⟨some, lexed⟩ := stands
  obtain ⟨c, cs, image⟩ := List.exists_cons_of_ne_nil some
  have behind : (raw.toList ++ f).drop raw.toList.length = f := List.drop_left
  have spelled : String.ofList (c :: cs) = raw := by rw [← image, String.ofList_toList]
  rw [image] at lexed behind ⊢
  rw [List.cons_append] at lexed behind ⊢
  have next : Decoding.step .text (c :: (cs ++ f)) =
      Option.some ([⟨.text, raw, 0⟩], .text, f) := by
    rw [Decoding.step, lexed]
    simp only [behind, token, spelled]
    rfl
  exact single next

theorem start (deferred : Bool) : ∃ t : Token,
    t.kind = (if deferred then .startDeferred else .startDynamic) ∧
      ∀ f, Decodes .text ((if deferred then '#' else '$') :: '\x7b' :: f) [t] .block f := by
  cases deferred with
  | false => exact ⟨⟨.startDynamic, "$\x7b", 0⟩, rfl, fun f => single rfl⟩
  | true => exact ⟨⟨.startDeferred, "#\x7b", 0⟩, rfl, fun f => single rfl⟩

end Decodes

end ElTemplate
