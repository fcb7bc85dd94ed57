import ElTemplate.Proofs.Template.Errors
import ElTemplate.Proofs.Token.Junction
import ElTemplate.Proofs.Token.Literal
import ElTemplate.Proofs.Token.Mode

/-!
# Between the blocks of a template

Where a parser stands between two blocks, the scanner behind it is outside of blocks at the same
place, even if the reader has asked it for tokens further on. So there is a text, a delimiter or the
end ahead, and behind a text no other text. The parser is prepared for something else, and for
floats that are no decimals; neither ever occurs.
-/

namespace ElTemplate

open ParserState (before)

namespace Grammar

open ElTemplate.Parser (startKind)

variable {features : FeatureSet} {phrase : Phrase} {deferred : Bool} {ts rest us : List Token}
  {nodes parts : List Node} {part : Node} {t : Token}

/-- The tokens of a phrase belong to the inside of blocks. -/
theorem Derives.inside (h : Derives features phrase ts nodes rest) :
    ∀ t ∈ ts, t ∈ rest ∨ t.kind ∉ Lexeme.textKinds := by
  have binary {t : Token} {op : BinaryOp} (hop : BinaryOp.ofKind? t.kind = some op) :
      t.kind ∉ Lexeme.textKinds := by
    rw [BinaryOp.eq_kind hop]
    cases op <;> decide
  have unary {t : Token} {op : UnaryOp} (hop : UnaryOp.ofKind? t.kind = some op) :
      t.kind ∉ Lexeme.textKinds := by
    rw [UnaryOp.eq_kind hop]
    cases op <;> decide
  have literal {t : Token} {value : Literal} (h : Literal.ofToken? t = some (.ok value)) :
      t.kind ∉ Lexeme.textKinds := by
    rw [Literal.eq_kind h]
    cases value with
    | boolean value => cases value <;> decide
    | _ => exact of_decide_eq_true rfl
  induction h with
  | _ => grind [Lexeme.textKinds]

theorem startKind_mem (deferred : Bool) : startKind deferred ∈ Lexeme.textKinds := by
  cases deferred <;> decide

/-- All blocks have the same delimiter. -/
theorem Parts.ne_start (h : Parts features deferred ts parts) :
    ∀ t ∈ ts, t.kind ≠ startKind (!deferred) := by
  have other : startKind deferred ≠ startKind (!deferred) := by cases deferred <;> decide
  have raw : .text ≠ startKind (!deferred) := (startKind_ne _).1.symm
  have block {ts rest : List Token} {part : Node} (h : Block features deferred ts part rest) :
      ∀ t ∈ ts, t ∈ rest ∨ t.kind ≠ startKind (!deferred) := by
    cases h with
    | mk hopening expression hclosing =>
      have closes : .endEval ≠ startKind (!deferred) := by cases deferred <;> decide
      have inner := expression.inside
      have outer := startKind_mem (!deferred)
      have opens : _ = startKind deferred := hopening
      grind
  induction h with
  | nil => exact List.forall_mem_nil _
  | block first _ ih =>
    intro t member
    exact (block first t member).elim (ih t) id
  | blockText first htext _ ih =>
    intro t member
    rcases block first t member with behind | here
    · rcases List.mem_cons.mp behind with rfl | further
      · rw [htext]
        exact raw
      · exact ih t further
    · exact here

/-- The last token of a block is its closing brace. -/
theorem Block.exists_closing (h : Block features deferred ts part rest) :
    ∃ us closing, ts = us ++ closing :: rest ∧ closing.kind = .endEval := by
  cases h with
  | @mk ts _ opening closing child _ expression hclosing =>
    obtain ⟨us, rfl⟩ := expression.suffix
    exact ⟨opening :: us, closing, rfl, hclosing⟩

/-- What blocks are refused for is never that neither delimiter is there. -/
theorem Blames.not_both {final : Except ScanError Nat} {e : ParseError} {kinds : List Token.Kind}
    (h : Blames (CompletesParts features deferred) ts final (.parse e))
    (expected : e.expected = .oneOf kinds) : startKind (!deferred) ∉ kinds := by
  cases h with
  | limit limit => rcases limit with limit | limit <;> cases limit.symm.trans expected
  | @refused us vs _ split ended other accepts =>
    cases expected
    intro member
    obtain ⟨t, kind, readable⟩ := Token.exists_isReadable (startKind (!deferred))
    obtain ⟨ts, parts, begins, -, derived⟩ := accepts t (kind ▸ member) readable
    have present : t ∈ ts := begins.subset (List.mem_append_right us List.mem_cons_self)
    exact derived.ne_start t present kind

end Grammar

namespace Parser

variable {features : FeatureSet} {source : List Char} {s s' : ParserState Reader} {texted : Bool}
  {size : Nat} {deferred : Bool} {part : Node} {state : ParserState Tape}

/-- Where a parser comes between the blocks of a template: to the first token, behind a block, and
from there behind a text if one is ahead. `texted` says whether the text has been looked for. -/
inductive AtTop (features : FeatureSet) (source : List Char) :
    Bool → ParserState Reader → Prop where
  | start {reader : Reader} (begun : Reader.ofChars source = .ok reader) :
      AtTop features source false (initialState reader)
  | text {s s' : ParserState Reader} {text : Option Node} (here : AtTop features source false s)
      (read : text? s = .ok (text, s')) : AtTop features source true s'
  | block {s s' : ParserState Reader} {size : Nat} {deferred : Bool} {part : Node}
      (here : AtTop features source true s)
      (read : block features size deferred s = .ok (part, s')) : AtTop features source false s'

/-- The state of a parser in front of what a scanner is going to give. -/
def onTape (scanner : Scanner) (names : Names) : ParserState Tape :=
  before scanner.tape.tokens scanner.tape.final names 0 0

/-- The tokens from here on are those of a scanner outside of blocks, and of one with no text ahead
where the text has been looked for. -/
structure Outside (texted : Bool) (scanner : Scanner) : Prop where
  mode : scanner.mode = .text
  stop : texted → scanner.rest = [] ∨ (Lexeme.delimiter? scanner.rest).isSome

variable {scanner after : Scanner} {t : Token} {names : Names}

theorem kindOf_tape (next : scanner.next = (.ok t, after)) :
    Grammar.kindOf scanner.tape.tokens = t.kind :=
  (Tape.kind_current _ scanner.tape.final).symm.trans
    (congrArg Token.kind (Scanner.tape_current next))

namespace Outside

/-- Outside of blocks a tape does not begin with an error. -/
theorem endsWell (h : Outside texted scanner) :
    (⟨scanner.tape.tokens, scanner.tape.final⟩ : Tape).EndsWell := by
  intro none
  obtain ⟨t, after, next⟩ := Scanner.exists_next_of_text h.mode
  by_cases kind : t.kind = .eof
  · rw [Scanner.tape_of_eof next kind]
    exact ⟨_, rfl⟩
  · rw [Scanner.tape_of_token next kind] at none
    cases none

/-- Looking for a text does not fail, and leaves none ahead. -/
theorem text? (h : Outside false scanner) (names : Names) :
    ∃ text after, Parser.text? (onTape scanner names) = .ok (text, onTape after names) ∧
      Outside true after := by
  obtain ⟨t, after, next⟩ := Scanner.exists_next_of_text h.mode
  have kind := kindOf_tape next
  by_cases htext : t.kind = .text
  · obtain ⟨mode, -, stop⟩ := Scanner.next_text next htext
    obtain ⟨t', after', next'⟩ := Scanner.exists_next_of_text mode
    have step : TokenSource.advance (onTape scanner names).source = .ok after.tape :=
      Scanner.tape_advance_ok next next'
    have current : TokenSource.current (onTape scanner names).source = t :=
      Scanner.tape_current next
    have moved : Parser.advance (onTape scanner names) = .ok (t, onTape after names) := by
      rw [Parser.advance, step, current]
      rfl
    refine ⟨some (.text t.image), after, ?_, mode, fun _ => stop⟩
    rw [onTape, Parser.text?, kind_before, if_pos (kind.trans htext)]
    exact bind_of_ok moved
  · exact ⟨none, scanner, Grammar.text?_of_ne _ _ (kind ▸ htext), h.mode,
      fun _ => Scanner.stop_of_ne_text h.mode next htext⟩

/-- Behind a block the scanner is outside of blocks again. -/
theorem block (read : Parser.block features size deferred (onTape scanner names) =
    .ok (part, state)) : ∃ after names', state = onTape after names' ∧ Outside false after := by
  obtain ⟨x, rest, derived, -, -, rfl⟩ := Grammar.sound_block read
  obtain ⟨us, closing, split, hclosing⟩ := derived.exists_closing
  have scanned : scanner.tape = ⟨(us ++ [closing]) ++ rest, scanner.tape.final⟩ := by
    rw [List.append_assoc, List.singleton_append, ← split]
  obtain ⟨after, emits, behind⟩ := Scanner.Emits.of_tape scanned
  refine ⟨after, (x.register features names).2, ?_, (emits.closes ?_).1, nofun⟩
  · rw [onTape, behind]
  · rw [List.getLast?_concat, Option.map_some, hclosing]

end Outside

/-- Between blocks, the reader follows the tape of a scanner outside of blocks. -/
theorem AtTop.outside (h : AtTop features source texted s) :
    ∃ scanner names, Outside texted scanner ∧
      ParserState.Related Reader.Follows s (onTape scanner names) := by
  induction h with
  | @start reader begun =>
    refine ⟨Scanner.ofChars source, .empty, ⟨rfl, nofun⟩, ?_, rfl, rfl, rfl, rfl⟩
    rw [Reader.ofChars] at begun
    split at begun
    · next next =>
      cases begun
      exact ⟨_, .cons next .nil, rfl⟩
    · cases begun
  | @text s s' text here read ih =>
    obtain ⟨scanner, names, outside, related⟩ := ih
    obtain ⟨found, after, same, behind⟩ := outside.text? names
    have agree := Simulates.text? Reader.simulation_follows _ _ related
    rw [read, same] at agree
    cases agree with
    | ok related => exact ⟨after, names, behind, related.2⟩
  | @block s s' size deferred part here read ih =>
    obtain ⟨scanner, names, outside, related⟩ := ih
    have agree := Simulates.block Reader.simulation_follows features size deferred _ _ related
    rw [read] at agree
    generalize found : Parser.block features size deferred (onTape scanner names) = result at agree
    cases agree with
    | @ok _ b related =>
      obtain ⟨part', state⟩ := b
      obtain ⟨after, names', rfl, behind⟩ := Outside.block found
      exact ⟨after, names', behind, related.2⟩
    | lost ended =>
      obtain ⟨e, never, -⟩ := ended
      exact never.elim

/-- The token ahead is one that a scanner outside of blocks gives. -/
theorem AtTop.exists_next (h : AtTop features source texted s) :
    ∃ scanner after, Outside texted scanner ∧
      scanner.next = (.ok (TokenSource.current s.source), after) := by
  obtain ⟨scanner, names, outside, related⟩ := h.outside
  obtain ⟨t, after, next⟩ := Scanner.exists_next_of_text outside.mode
  have same : TokenSource.current s.source = t :=
    related.source.current.trans (Scanner.tape_current next)
  exact ⟨scanner, after, outside, same ▸ next⟩

theorem AtTop.kind_mem (h : AtTop features source texted s) :
    (TokenSource.current s.source).kind ∈ [.text, .startDynamic, .startDeferred, .eof] := by
  obtain ⟨scanner, after, outside, next⟩ := h.exists_next
  rcases Scanner.kind_of_text outside.mode next with kind | kind
  · exact List.mem_append_left [.eof] kind
  · exact List.mem_append_right Lexeme.textKinds (List.mem_singleton.mpr kind)

/-- No text is ahead where one has been looked for. -/
theorem AtTop.kind_mem_of_texted (h : AtTop features source true s) :
    (TokenSource.current s.source).kind ∈ [.startDynamic, .startDeferred, .eof] := by
  obtain ⟨scanner, after, outside, next⟩ := h.exists_next
  exact Scanner.kind_of_stop outside.mode (outside.stop rfl) next

theorem AtTop.text?_ok (h : AtTop features source false s) :
    ∃ text s', Parser.text? s = .ok (text, s') := by
  obtain ⟨scanner, names, outside, related⟩ := h.outside
  obtain ⟨text, after, read, -⟩ := outside.text? names
  have agree := Simulates.text? Reader.simulation_follows _ _ related
  rw [read] at agree
  generalize Parser.text? s = result at agree
  cases agree with
  | @ok a _ related => exact ⟨a.1, a.2, rfl⟩

/-- Blocks are never refused for having neither delimiter. -/
theorem AtTop.blocks_expected {text : Option Node} {e : ParseError} {kinds : List Token.Kind}
    (h : AtTop features source true s)
    (failed : blocks features size text deferred s = .error (.parse e))
    (expected : e.expected = .oneOf kinds) : startKind (!deferred) ∉ kinds := by
  obtain ⟨scanner, names, outside, related⟩ := h.outside
  have agree := Simulates.blocks Reader.simulation_follows features size text deferred _ _ related
  rw [failed] at agree
  generalize found : blocks features size text deferred (onTape scanner names) = result at agree
  cases agree with
  | error => exact (Grammar.blocks_blames outside.endsWell found).not_both expected
  | lost ended =>
    obtain ⟨e, never, -⟩ := ended
    exact never.elim

/-- A template is never refused for having neither delimiter. -/
theorem AtTop.template_expected {e : ParseError} {kinds : List Token.Kind}
    (h : AtTop features source false s)
    (failed : template features size s = .error (.parse e))
    (expected : e.expected = .oneOf kinds) :
    ∃ deferred, startKind deferred ∉ kinds := by
  rcases bind_eq_error failed with stuck | ⟨text, s', found, failed⟩
  · obtain ⟨text, s', read⟩ := h.text?_ok
    cases read.symm.trans stuck
  · have behind := h.text found
    have ahead := behind.kind_mem_of_texted
    rw [kind_bind] at failed
    generalize (TokenSource.current s'.source).kind = kind at ahead failed
    simp only [List.mem_cons, List.not_mem_nil, or_false] at ahead
    rcases ahead with rfl | rfl | rfl
    · rcases bind_eq_error failed with stuck | ⟨root, s'', -, failed⟩
      · exact ⟨true, behind.blocks_expected stuck expected⟩
      · cases failed
    · rcases bind_eq_error failed with stuck | ⟨root, s'', -, failed⟩
      · exact ⟨false, behind.blocks_expected stuck expected⟩
      · cases failed
    · cases failed

end Parser

namespace Template

open ElTemplate.Parser (AtTop startKind)

variable {features : FeatureSet} {source : String}

theorem compile_expected {e : ParseError} {kinds : List Token.Kind}
    (failed : compile features source = .error (.parse e)) (expected : e.expected = .oneOf kinds) :
    ∃ deferred, startKind deferred ∉ kinds := by
  rw [compile] at failed
  split at failed
  · next reader begun =>
    rw [Parser.run] at failed
    split at failed
    · cases failed
    · next stuck =>
      cases failed
      exact (AtTop.start begun).template_expected stuck expected
  · cases failed

/-- A scanning error is that at the end of the tape, inside of a block. -/
theorem compile_scan {e : ScanError} (failed : compile features source = .error (.scan e)) :
    (tape source).final = .error e ∧ Scanner.EndsInside (tape source).tokens := by
  cases compile_blames failed with
  | limit limit => exact limit.elim
  | unscanned final _ =>
    refine ⟨final, ?_⟩
    rcases Scanner.endsInside_of_error final with inside | ⟨mode, -⟩
    · exact inside
    · cases mode
  | malformed present unreadable =>
    have readable := (Scanner.ofChars source.toList).isReadable_of_mem_tape _ present
    exact absurd unreadable (readable _)

/-- What the scanner gives as a float has the form of one and is a decimal. Between the blocks of a
template there is a text, a delimiter or the end ahead, where looking for a text does not fail, and
behind the text there is a delimiter or the end. So scanning fails inside of a block only and not
for a float, and no template is refused for having neither delimiter where one has to be. -/
theorem unreachable_errors (features : FeatureSet) (source : String) :
    (∀ (s s' : Scanner) (t : Token), s.next = (.ok t, s') → t.kind = .float →
      Lexical.IsFloat t.image.toList ∧ (Binary64.read? t.image.toList).isSome) ∧
    (∀ s, AtTop features source.toList false s →
      (TokenSource.current s.source).kind ∈ [.text, .startDynamic, .startDeferred, .eof] ∧
      ∃ text s', Parser.text? s = .ok (text, s')) ∧
    (∀ s, AtTop features source.toList true s →
      (TokenSource.current s.source).kind ∈ [.startDynamic, .startDeferred, .eof]) ∧
    (∀ e, compile features source = .error (.scan e) →
      (∀ image, e.fault ≠ .malformedFloat image) ∧ (tape source).final = .error e ∧
        Scanner.EndsInside (tape source).tokens) ∧
    ∀ e kinds, compile features source = .error (.parse e) → e.expected = .oneOf kinds →
      ¬ (.startDynamic ∈ kinds ∧ .startDeferred ∈ kinds) := by
  refine ⟨fun s s' t => Scanner.isFloat_of_next, fun s here => ⟨here.kind_mem, here.text?_ok⟩,
    fun s here => here.kind_mem_of_texted, fun e failed => ?_, fun e kinds failed expected => ?_⟩
  · obtain ⟨final, inside⟩ := compile_scan failed
    exact ⟨Scanner.fault_of_tape final, final, inside⟩
  · rintro ⟨dynamic, deferred⟩
    obtain ⟨_ | _, absent⟩ := compile_expected failed expected
    · exact absent dynamic
    · exact absent deferred

/-- A text with a block behind it that cannot be scanned, and a float that ends with an exponent
behind its point. -/
theorem unreachable_errors_invalid :
    (∃ e, compile .none "a$\x7b@" = .error (.scan e) ∧ e.fault = .invalidCharacter '@' ∧
      Scanner.EndsInside (tape "a$\x7b@").tokens) ∧
    (∃ s, AtTop .none "a$\x7b@".toList true s ∧
      (TokenSource.current s.source).kind ∈ [.startDynamic, .startDeferred, .eof]) ∧
    Lexical.IsFloat ['1', '.', 'e', '5'] := by
  obtain ⟨floats, texts, starts, scans, -⟩ := unreachable_errors .none "a$\x7b@"
  have failed : compile .none "a$\x7b@" = .error (.scan ⟨3, .invalidCharacter '@'⟩) := rfl
  have begun : AtTop .none "a$\x7b@".toList false (Parser.initialState
      ⟨⟨.text, "a", 0⟩, [], ⟨.text, ['$', '\x7b', '@'], 1⟩⟩) := .start rfl
  obtain ⟨-, text, s, read⟩ := texts _ begun
  have float := (floats ⟨.block, ['1', '.', 'e', '5'], 0⟩ ⟨.block, [], 4⟩ ⟨.float, "1.e5", 0⟩ rfl
    rfl).1
  exact ⟨⟨_, failed, rfl, (scans _ failed).2.2⟩, ⟨s, .text begun read, starts s (.text begun read)⟩,
    float⟩

end Template

end ElTemplate
