import ElTemplate.Proofs.Grammar.Shape
import ElTemplate.Proofs.Template.Concatenation
import ElTemplate.Proofs.Template.Errors
import ElTemplate.Proofs.Token.Delimiter

/-!
# The shape of compiled templates

A compiled template has the shape that the grammar gives it, and its blocks all begin with the
delimiter of the first one. The other delimiter is refused behind blocks that can be read. What
comes after it does not matter: a parser that stops at a token has not asked for anything further.
-/

namespace ElTemplate

open ParserState (before)

namespace Tape

/-- The second tape ends with an error behind the tokens of the first one, and some are left. -/
inductive CutShort (e : ScanError) : Tape → Tape → Prop
  | mk {t : Token} {ts : List Token} {stop : Nat} :
      CutShort e ⟨t :: ts, .ok stop⟩ ⟨t :: ts, .error e⟩

/-- Nothing but its error tells a tape that is cut short from a whole one. -/
theorem simulation_cutShort (e : ScanError) :
    TokenSource.Simulation (· = e) (CutShort e) where
  current := by
    rintro _ _ ⟨⟩
    rfl
  advance := by
    rintro _ _ (@⟨t, ts, stop⟩)
    cases ts with
    | nil => exact .lost rfl
    | cons u ts => exact .ok .mk
  ahead := by
    rintro _ _ index (@⟨t, ts, stop⟩)
    change Agree _ _ ((kindAt ⟨t :: ts, .ok stop⟩ (index + 1)).map _)
      ((kindAt ⟨t :: ts, .error e⟩ (index + 1)).map _)
    simp only [kindAt]
    cases List.drop (index + 1) (t :: ts) with
    | nil => exact .lost rfl
    | cons u us => exact .ok ⟨rfl, .mk⟩

end Tape

namespace Grammar

open ElTemplate.Parser (startKind)

variable {features : FeatureSet} {deferred : Bool} {ts more : List Token} {root : Node} {d : Token}

/-- No template begins with blocks and the other delimiter. -/
theorem Sentence.not_completes_start (h : Sentence features ts root deferred)
    (block : root.isText = false) (fits : root.Fits 0 0)
    (foreign : d.kind = startKind (!deferred)) : ¬ CompletesSentence features (ts ++ d :: more) := by
  rintro ⟨further, other, deferred', sentence⟩
  have short := Nat.le_refl (ts ++ d :: more ++ further).length
  have read : Parser.Leads (Parser.template features _ (before _ (.ok 0) .empty 0 0)) _ _ :=
    sentence.leads short
  rw [List.append_assoc, List.cons_append] at read short
  have refused : Parser.template features _ (before _ (.ok 0) .empty 0 0) = _ :=
    h.refuses_start foreign block fits short
  by_cases room : other.Fits 0 0
  · cases (read.reaches room).symm.trans refused
  · obtain ⟨e, limit, stopped⟩ := read.stops room
    cases stopped.symm.trans refused
    rcases limit with limit | limit <;> cases limit

end Grammar

namespace Template

open Grammar
open ElTemplate.Parser (startKind)

variable {features : FeatureSet} {source : String} {t : Template} {d : Token}
  {tokens us more : List Token} {root : Node} {deferred : Bool} {final : Except ScanError Nat}
  {e : ScanError}

/-- Compiling reports where the tokens end early, or does not depend on it. -/
theorem compile_of_cutShort (scanned : tape source = ⟨d :: more, .error e⟩) (stop : Nat) :
    Parser.run features source.length (⟨d :: more, .ok stop⟩ : Tape) = compile features source ∨
      compile features source = .error (.scan e) := by
  have cut : Tape.CutShort e ⟨d :: more, .ok stop⟩ ⟨d :: more, .error e⟩ := .mk
  have same := Parser.run_agree (Tape.simulation_cutShort e) features source.length cut
  rw [compile_eq_ofTape, scanned]
  refine same.imp_right ?_
  rintro ⟨_, rfl, ended⟩
  exact ended

/-- Behind blocks that can be read, the other delimiter is refused, whatever is behind it. -/
theorem compile_refuses_start (scanned : tape source = ⟨us ++ d :: more, final⟩)
    (sentence : Sentence features us root deferred) (block : root.isText = false)
    (fits : root.Fits 0 0) (foreign : d.kind = startKind (!deferred)) :
    compile features source = .error (.parse ⟨d, .oneOf [startKind deferred]⟩) := by
  have short := length_tape_le source
  rw [scanned] at short
  cases final with
  | ok stop => rw [compile_of_tape scanned, sentence.refuses_start foreign block fits short]
  | error e =>
    have cut : ∃ u vs, us ++ d :: more = u :: vs := by
      cases us with
      | nil => exact ⟨d, more, rfl⟩
      | cons u us => exact ⟨u, us ++ d :: more, rfl⟩
    obtain ⟨u, vs, begins⟩ := cut
    rcases compile_of_cutShort (begins ▸ scanned) 0 with same | ended
    · rw [← same, ← begins, run_tape, sentence.refuses_start foreign block fits short]
    · have blamed := compile_blames ended
      rw [scanned] at blamed
      cases blamed with
      | limit limit => exact limit.elim
      | unscanned _ whole =>
        exact absurd whole (sentence.not_completes_start block fits foreign)
      | @malformed t fault present unreadable =>
        have readable := (Scanner.ofChars source.toList).isReadable_of_mem_tape t
        rw [show (Scanner.ofChars source.toList).tape = _ from scanned] at readable
        exact absurd unreadable (readable present fault)

/-- The first block of a template tells its delimiter. -/
theorem find?_isStart (compiled : compile features source = .ok t) :
    ((tape source).tokens.find? Token.isStart).map Token.kind =
      if t.isLiteralText then none else some (startKind t.deferred) := by
  obtain ⟨tokens, stop, root, deferred, scanned, sentence, -, rfl⟩ := compile_eq_ok_iff.mp compiled
  rw [isLiteralText_ofRoot, scanned]
  by_cases text : root.isText
  · rw [if_pos text, Option.map_eq_none_iff, List.find?_eq_none]
    intro t member
    rw [Token.isStart, sentence.kind_eq_text text t member]
    exact Bool.false_ne_true
  · rw [if_neg text]
    obtain ⟨lead, start, more, -, -, kind, found⟩ :=
      sentence.exists_start (Bool.eq_false_of_not_eq_true text)
    rw [found]
    exact congrArg some kind

theorem isTemplate_of_sentence {stop : Nat}
    (scanned : tape source = ⟨tokens, .ok stop⟩)
    (sentence : Sentence features tokens root deferred) : root.IsTemplate deferred := by
  have stand := (Scanner.ofChars source.toList).textsStand_tape
  rw [show (Scanner.ofChars source.toList).tape = _ from scanned] at stand
  exact sentence.isTemplate stand.image_ne

theorem isTemplate_root (compiled : compile features source = .ok t) :
    t.root.IsTemplate t.deferred := by
  obtain ⟨tokens, stop, root, deferred, scanned, sentence, -, rfl⟩ := compile_eq_ok_iff.mp compiled
  rw [ofRoot_eq]
  exact (isTemplate_of_sentence scanned sentence).reindex

theorem names_of_isLiteralText (compiled : compile features source = .ok t)
    (literal : t.isLiteralText) : t.identifiers = [] ∧ t.functions = [] := by
  obtain ⟨tokens, stop, root, deferred, -, -, -, rfl⟩ := compile_eq_ok_iff.mp compiled
  rw [isLiteralText_ofRoot] at literal
  cases root with
  | text raw => exact ⟨rfl, rfl⟩
  | _ => cases literal

theorem describe_start {deferred : Bool} (member : d ∈ (tape source).tokens)
    (start : d.kind = startKind deferred) : d.describe = (startKind deferred).describe := by
  have image := (Scanner.ofChars source.toList).image_of_mem_tape d member deferred start
  have proper : d.kind ≠ .eof := start ▸ (startKind_ne deferred).2
  rw [Token.describe, if_neg proper, image]
  cases deferred <;> rfl

/-- A compiled template is a text without names, or blocks of one delimiter with texts between them,
and it is deferred if its first block is. Behind blocks that can be read, a block with the other
delimiter is refused at this delimiter, with the first one expected. Of what follows nothing is
asked, not even that it can be scanned. -/
theorem compile_shape (features : FeatureSet) (source : String) :
    (∀ t, compile features source = .ok t → t.root.IsTemplate t.deferred ∧
      (t.isLiteralText → t.identifiers = [] ∧ t.functions = []) ∧
      ((tape source).tokens.find? Token.isStart).map Token.kind =
        if t.isLiteralText then none else some (startKind t.deferred)) ∧
    ∀ us d more final root deferred, tape source = ⟨us ++ d :: more, final⟩ →
      Sentence features us root deferred → root.isText = false → root.Fits 0 0 →
      d.kind = startKind (!deferred) →
      ∃ e, compile features source = .error (.parse e) ∧ e.encountered = d ∧
        e.encountered.describe = (startKind (!deferred)).describe ∧
        e.expected.describe = (startKind deferred).describe := by
  constructor
  · intro t compiled
    exact ⟨isTemplate_root compiled, names_of_isLiteralText compiled, find?_isStart compiled⟩
  · intro us d more final root deferred scanned sentence block fits foreign
    have member : d ∈ (tape source).tokens := by
      rw [scanned]
      exact List.mem_append_right us List.mem_cons_self
    refine ⟨_, compile_refuses_start scanned sentence block fits foreign, rfl,
      describe_start member foreign, ?_⟩
    cases deferred <;> rfl

/-- A variable, and then a block with the other delimiter that cannot be scanned. -/
theorem compile_shape_mixed :
    (∃ t, compile .none "$\x7ba\x7d" = .ok t ∧ t.root.IsTemplate t.deferred) ∧
    ∃ e, compile .none "$\x7ba\x7d#\x7b@" = .error (.parse e) ∧ e.encountered.position = 4 ∧
      e.encountered.describe = "'#\x7b'" ∧ e.expected.describe = "'$\x7b'" := by
  have scanned : tape "$\x7ba\x7d#\x7b@" =
      ⟨[⟨.startDynamic, "$\x7b", 0⟩, ⟨.identifier, "a", 2⟩, ⟨.endEval, "\x7d", 3⟩] ++
        ⟨.startDeferred, "#\x7b", 4⟩ :: [], .error ⟨6, .invalidCharacter '@'⟩⟩ :=
    Scanner.tape_of_steps 5 rfl
  have sentence : Sentence .none
      [⟨.startDynamic, "$\x7b", 0⟩, ⟨.identifier, "a", 2⟩, ⟨.endEval, "\x7d", 3⟩]
      (.eval false (.identifier "a" 0)) false :=
    .ofValue rfl (.primary (.identifier rfl nofun)) rfl
  have fits : (Node.identifier "a" 0).Fits 1 1 := trivial
  obtain ⟨e, refused, encountered, description, expected⟩ :=
    (compile_shape .none _).2 _ _ _ _ _ _ scanned sentence rfl (fits.eval false) rfl
  refine ⟨⟨_, compile_variable, ((compile_shape .none _).1 _ compile_variable).1⟩,
    e, refused, ?_, description, expected⟩
  rw [encountered]

end Template

end ElTemplate
