import ElTemplate.Proofs.Grammar.Templates
import ElTemplate.Proofs.Parser.Lookahead

/-!
# The language of templates

A source text compiles exactly if its tokens are a sentence and the tree of the sentence fits the
limits; the template is then the one of this tree. No two trees belong to the same tokens.
-/

namespace ElTemplate

open ParserState (before)

namespace Tape

/-- If no token is left, then the tape has ended well. -/
def EndsWell (tape : Tape) : Prop :=
  tape.tokens = [] → ∃ stop, tape.final = .ok stop

theorem EndsWell.advance {tape tape' : Tape} (h : tape.advance = .ok tape') : tape'.EndsWell := by
  intro ended
  cases advance_eq_ok h
  change tape.tokens.tail = [] at ended
  rw [Tape.advance, ended] at h
  cases final : tape.final with
  | ok stop => exact ⟨stop, rfl⟩
  | error e =>
    rw [final] at h
    cases h

/-- Reading keeps to tapes that end well. -/
theorem simulation_endsWell :
    TokenSource.Simulation (fun _ => False) fun a b : Tape => a = b ∧ a.EndsWell where
  current := by
    rintro a b ⟨rfl, -⟩
    rfl
  advance := by
    rintro a b ⟨rfl, -⟩
    change Agree _ _ a.advance a.advance
    cases h : a.advance with
    | error e => exact .error e
    | ok a' => exact .ok ⟨rfl, .advance h⟩
  ahead {a b} index h := by
    obtain ⟨rfl, ended⟩ := h
    change Agree _ _ ((a.kindAt (index + 1)).map _) ((a.kindAt (index + 1)).map _)
    cases a.kindAt (index + 1) with
    | error e => exact .error e
    | ok k => exact .ok ⟨rfl, rfl, ended⟩

end Tape

namespace Template

open Grammar

variable {features : FeatureSet} {source : String} {tokens : List Token} {stop : Nat}
  {root root' : Node} {deferred deferred' : Bool} {t : Template}

theorem length_tape_le (source : String) : (tape source).tokens.length ≤ source.length := by
  have short := (Scanner.ofChars source.toList).length_tape_le
  rwa [← String.length_toList]

/-- Parsing a tape starts in front of all its tokens. -/
theorem run_tape (size : Nat) (tokens : List Token) (final : Except ScanError Nat) :
    Parser.run features size (⟨tokens, final⟩ : Tape) =
      match Parser.template features size (before tokens final .empty 0 0) with
      | .ok ((root, deferred), s) =>
        .ok ⟨root, deferred, s.identifiers.toList, s.functions.toList⟩
      | .error e => .error e := by
  have start : Parser.initialState (⟨tokens, final⟩ : Tape) = before tokens final .empty 0 0 := rfl
  rw [Parser.run, start]
  cases Parser.template features size (before tokens final .empty 0 0) <;> rfl

theorem compile_of_tape (scanned : tape source = ⟨tokens, .ok stop⟩) :
    compile features source =
      match Parser.template features source.length (before tokens (.ok stop) .empty 0 0) with
      | .ok ((root, deferred), s) =>
        .ok ⟨root, deferred, s.identifiers.toList, s.functions.toList⟩
      | .error e => .error e := by
  rw [compile_eq_ofTape, scanned, ← run_tape]
  cases tokens <;> rfl

/-- A sentence compiles to its template if its tree fits, and is stopped by a limit otherwise. -/
theorem compile_of_sentence (scanned : tape source = ⟨tokens, .ok stop⟩)
    (sentence : Sentence features tokens root deferred) :
    Parser.Leads (compile features source) (root.Fits 0 0)
      (.ok (.ofRoot features root deferred)) := by
  have short : tokens.length ≤ source.length := by
    have := length_tape_le source
    rwa [scanned] at this
  have read : Parser.Leads
      (Parser.template features source.length (before tokens (.ok stop) .empty 0 0))
      (root.Fits 0 0) _ := sentence.leads short
  rw [compile_of_tape scanned]
  constructor
  · intro fits
    rw [read.reaches fits]
    rfl
  · intro large
    obtain ⟨e, limit, stopped⟩ := read.stops large
    rw [stopped]
    exact ⟨e, limit, rfl⟩

/-- Success of compiling is success of parsing on the tape of the source. -/
theorem template_of_compile (h : compile features source = .ok t) :
    ∃ s', Parser.template features source.length
        (before (tape source).tokens (tape source).final .empty 0 0) =
          .ok ((t.root, t.deferred), s') ∧
      t = ⟨t.root, t.deferred, s'.identifiers.toList, s'.functions.toList⟩ ∧
      s'.source.EndsWell := by
  rw [compile_eq_ofTape] at h
  generalize tape source = tape at h ⊢
  obtain ⟨tokens, final⟩ := tape
  have ended : (⟨tokens, final⟩ : Tape).EndsWell := by
    rintro rfl
    cases final with
    | ok stop => exact ⟨stop, rfl⟩
    | error e => cases h
  have parsed : Parser.run features source.length (⟨tokens, final⟩ : Tape) = .ok t := by
    cases tokens <;> cases final <;> first | exact h | cases h
  have related : ParserState.Related (fun a b : Tape => a = b ∧ a.EndsWell)
      (before tokens final .empty 0 0) (before tokens final .empty 0 0) :=
    ⟨⟨rfl, ended⟩, rfl, rfl, rfl, rfl⟩
  have kept := Parser.Simulates.template Tape.simulation_endsWell features source.length _ _ related
  rw [run_tape] at parsed
  cases read : Parser.template features source.length (before tokens final .empty 0 0) with
  | error e =>
    rw [read] at parsed
    cases parsed
  | ok result =>
    obtain ⟨⟨root, deferred⟩, s'⟩ := result
    rw [read] at parsed kept
    cases parsed
    cases kept with
    | ok related => exact ⟨s', rfl, rfl, related.2.source.2⟩

/-- A source text compiles exactly if its tokens are a sentence whose tree fits the limits. -/
theorem compile_eq_ok_iff :
    compile features source = .ok t ↔
      ∃ tokens stop root deferred, tape source = ⟨tokens, .ok stop⟩ ∧
        Sentence features tokens root deferred ∧ root.Fits 0 0 ∧
        t = .ofRoot features root deferred := by
  constructor
  · intro compiled
    obtain ⟨s', parsed, same, ended⟩ := template_of_compile compiled
    have proper := (Scanner.ofChars source.toList).ne_eof_of_mem_tape
    obtain ⟨root, sentence, fits, hroot, rfl⟩ :=
      sound_template proper (length_tape_le source) parsed
    obtain ⟨stop, final⟩ := ended rfl
    have scanned : tape source = ⟨(tape source).tokens, .ok stop⟩ := by
      rw [← final]
      rfl
    refine ⟨_, stop, root, t.deferred, scanned, sentence, fits, ?_⟩
    rw [same, hroot]
    rfl
  · rintro ⟨tokens, stop, root, deferred, scanned, sentence, fits, rfl⟩
    exact (compile_of_sentence scanned sentence).reaches fits

/-- A template tells which tree it was made from. -/
theorem ofRoot_inj (hroot : root.erase = root) (hroot' : root'.erase = root')
    (same : ofRoot features root deferred = ofRoot features root' deferred') :
    root = root' ∧ deferred = deferred' := by
  have roots : (root.register features .empty).1 = (root'.register features .empty).1 :=
    congrArg Template.root same
  refine ⟨?_, congrArg Template.deferred same⟩
  rw [← hroot, ← hroot', ← Node.erase_register .empty root, roots, Node.erase_register]

/-- A source text that scans, and that no limit stops, compiles exactly if its tokens are a
sentence, and then to the template of the sentence's tree, of which there is no second one. -/
theorem compile_ok_iff_sentence (scanned : tape source = ⟨tokens, .ok stop⟩)
    (unlimited : ∀ e, compile features source = .error e → ¬ e.IsLimit) :
    (∀ t, compile features source = .ok t ↔
      ∃ root deferred, Sentence features tokens root deferred ∧
        t = .ofRoot features root deferred) ∧
    ∀ root deferred root' deferred', Sentence features tokens root deferred →
      Sentence features tokens root' deferred' → root = root' ∧ deferred = deferred' := by
  have compiles : ∀ root deferred, Sentence features tokens root deferred →
      compile features source = .ok (.ofRoot features root deferred) := by
    intro root deferred sentence
    have leads := compile_of_sentence scanned sentence
    by_cases fits : root.Fits 0 0
    · exact leads.reaches fits
    · obtain ⟨e, limit, stopped⟩ := leads.stops fits
      exact absurd limit (unlimited e stopped)
  refine ⟨fun t => ⟨fun compiled => ?_, ?_⟩, ?_⟩
  · obtain ⟨tokens', stop', root, deferred, scanned', sentence, -, rfl⟩ :=
      compile_eq_ok_iff.mp compiled
    cases scanned.symm.trans scanned'
    exact ⟨root, deferred, sentence, rfl⟩
  · rintro ⟨root, deferred, sentence, rfl⟩
    exact compiles root deferred sentence
  · intro root deferred root' deferred' first second
    have same := (compiles root deferred first).symm.trans (compiles root' deferred' second)
    exact ofRoot_inj first.erase_eq second.erase_eq (Except.ok.inj same)

theorem tape_of_operand {cs : List Char} {operand : Token} {p : Nat}
    (text : source.toList = '$' :: '\x7b' :: cs)
    (scanned : Scanner.next ⟨.block, cs, 2⟩ = (.ok operand, ⟨.block, ['\x7d'], p⟩))
    (proper : operand.kind ≠ .eof) :
    tape source = ⟨[⟨.startDynamic, "$\x7b", 0⟩, operand, ⟨.endEval, "\x7d", p⟩], .ok (p + 1)⟩ := by
  have opening : (Scanner.ofChars source.toList).next =
      (.ok ⟨.startDynamic, "$\x7b", 0⟩, ⟨.block, cs, 2⟩) := by
    rw [text]
    rfl
  have closing : Scanner.next ⟨.block, ['\x7d'], p⟩ =
      (.ok ⟨.endEval, "\x7d", p⟩, ⟨.text, [], p + 1⟩) := rfl
  have last : Scanner.next ⟨.text, [], p + 1⟩ = (.ok ⟨.eof, "", p + 1⟩, ⟨.text, [], p + 1⟩) := rfl
  rw [tape, Scanner.tape_of_token opening (by decide), Scanner.tape_of_token scanned proper,
    Scanner.tape_of_token closing Token.Kind.noConfusion, Scanner.tape_of_eof last rfl]
  rfl

/-- A block around a value compiles if the value fits. -/
theorem compile_of_value {start closing : Token} {ts : List Token} {x : Node}
    (scanned : tape source = ⟨start :: ts, .ok stop⟩) (hstart : start.kind = .startDynamic)
    (value : Derives features .value ts [x] [closing]) (hclosing : closing.kind = .endEval)
    (fits : x.Fits 1 1) :
    compile features source = .ok (.ofRoot features (.eval false x) false) := by
  have sentence : Sentence features (start :: ts) (.eval false x) false :=
    .ofValue hstart value hclosing
  exact (compile_of_sentence scanned sentence).reaches (fits.eval false)

theorem tape_of_variable : tape "$\x7ba\x7d" =
    ⟨[⟨.startDynamic, "$\x7b", 0⟩, ⟨.identifier, "a", 2⟩, ⟨.endEval, "\x7d", 3⟩], .ok 4⟩ :=
  tape_of_operand rfl rfl (by decide)

theorem compile_variable : compile features "$\x7ba\x7d" =
    .ok (.ofRoot features (.eval false (.identifier "a" 0)) false) :=
  compile_of_value tape_of_variable rfl (.primary (.identifier rfl nofun)) rfl trivial

/-- A block with a variable is a sentence with one tree, and compiles to it. -/
theorem compile_ok_iff_sentence_variable :
    tape "$\x7ba\x7d" =
      ⟨[⟨.startDynamic, "$\x7b", 0⟩, ⟨.identifier, "a", 2⟩, ⟨.endEval, "\x7d", 3⟩], .ok 4⟩ ∧
    compile .none "$\x7ba\x7d" = .ok (.ofRoot .none (.eval false (.identifier "a" 0)) false) := by
  have unlimited : ∀ e, compile .none "$\x7ba\x7d" = .error e → ¬ e.IsLimit := by
    intro e failed
    cases compile_variable.symm.trans failed
  refine ⟨tape_of_variable, ?_⟩
  exact ((compile_ok_iff_sentence tape_of_variable unlimited).1 _).mpr
    ⟨_, _, .ofValue rfl (.primary (.identifier rfl nofun)) rfl, rfl⟩

end Template

end ElTemplate
