import ElTemplate.Proofs.Grammar.Canonical
import ElTemplate.Proofs.Grammar.Language
import ElTemplate.Proofs.Token.Text

/-!
# Compiling canonical text

The canonical text of a compiled template compiles to the same template again, unless one of its
nodes is misread: an infinite number, or a property of a whole number whose name goes on with it
like an exponent. Then the text compiles to another template or not at all.
-/

namespace ElTemplate

namespace Grammar

open Scanner (Scans)

variable {features : FeatureSet} {deferred : Bool} {ts rest : List Token} {part root : Node}
  {parts : List Node}

/-- The text of a block is scanned as tokens like those it was derived from. -/
theorem Block.spelled (h : Block features deferred ts part rest) :
    ∃ us, ts = us ++ rest ∧ ((∀ u ∈ us, Token.Regular u.kind u.image.toList) →
      ∀ f, Scans part.Legible .text part.chars us .text f) := by
  cases h with
  | @mk ts _ opening closing child hopening expression hclosing =>
    obtain ⟨us, rfl, -, scans⟩ := expression.spelled
    refine ⟨opening :: (us ++ [closing]), by simp, ?_⟩
    intro regular f
    obtain ⟨-, regular⟩ := List.forall_mem_cons.mp regular
    obtain ⟨regular, -⟩ := List.forall_mem_append.mp regular
    have last : Scans True .block ['\x7d'] [closing] .text f := by
      have mark := Scans.mark (c := '\x7d') (t := closing) (f := f) (hclosing ▸ by decide)
      rwa [hclosing] at mark
    have ends : Phrase.expression.Ends (['\x7d'] ++ f) := ends_cons (by decide) (by decide)
    have inner := (scans regular _ ends).append fun _ => last
    have all := (Scans.start hopening).append fun _ => inner
    rw [Node.chars_eval, Node.legible_eval]
    apply all.congr
    constructor
    · intro legible
      exact ⟨trivial, legible, trivial⟩
    · rintro ⟨-, legible, -⟩
      exact legible

/-- The text of blocks begins as their tokens say. -/
theorem Parts.opening_eq (h : Parts features deferred ts parts) :
    (Token.opening ts).take 2 = (Node.charsParts parts).take 2 := by
  have opened : ∀ {us child} {tail : List Node}, Block features deferred ts child us →
      (Token.opening ts).take 2 = (Node.charsParts (child :: tail)).take 2 := by
    intro us child tail block
    cases block with
    | mk hopening _ _ =>
      rw [Node.charsParts_cons, Node.chars_eval, Token.opening, hopening]
      cases deferred <;> rfl
  cases h with
  | nil => rfl
  | block first _ => exact opened first
  | blockText first _ _ => exact opened first

theorem Parts.spelled (h : Parts features deferred ts parts)
    (regular : ∀ t ∈ ts, Token.Regular t.kind t.image.toList) (stand : Token.TextsStand ts) :
    Scans (Node.LegibleAll parts) .text (Node.charsParts parts) ts .text [] := by
  induction h with
  | nil => exact Scans.nil.congr Node.legibleAll_nil
  | block first _ ih =>
    obtain ⟨us, rfl, scans⟩ := first.spelled
    obtain ⟨regular, regular'⟩ := List.forall_mem_append.mp regular
    have all := (scans regular _).append fun _ => ih regular' stand.of_append
    rw [Node.charsParts_cons]
    exact all.congr Node.legibleAll_cons
  | @blockText ts rest text part parts first htext more ih =>
    obtain ⟨us, rfl, scans⟩ := first.spelled
    obtain ⟨regular, regular'⟩ := List.forall_mem_append.mp regular
    obtain ⟨-, regular'⟩ := List.forall_mem_cons.mp regular'
    obtain ⟨stands, stand⟩ := stand.of_append
    have again : Lexeme.Stands text.image.toList (Node.charsParts parts ++ []) := by
      apply (stands htext).congr
      rw [List.append_nil]
      exact more.opening_eq
    have behind := (Scans.text htext again).append fun _ => ih regular' stand
    have all := (scans regular _).append fun _ => behind
    rw [Node.charsParts_cons, Node.charsParts_cons, Node.chars_text]
    apply all.congr
    rw [Node.legibleAll_cons, Node.legibleAll_cons, Node.legible_text]

/-- The canonical text of a sentence is scanned as tokens like its own exactly if its root is
legible. -/
theorem Sentence.spelled (h : Sentence features ts root deferred)
    (regular : ∀ t ∈ ts, Token.Regular t.kind t.image.toList) (stand : Token.TextsStand ts) :
    Scans root.Legible .text root.chars ts .text [] := by
  cases h with
  | empty =>
    rw [Node.chars_text]
    exact Scans.nil.congr Node.legible_text
  | text htext =>
    rw [Node.chars_text]
    exact (Scans.text htext (stand.1 htext)).congr Node.legible_text
  | block block =>
    obtain ⟨us, rfl, scans⟩ := block.spelled
    rw [List.append_nil] at regular ⊢
    exact scans regular []
  | parts derived _ =>
    rw [Node.chars_composite]
    exact (derived.spelled regular stand).congr Node.legible_composite
  | @textParts _ ts text parts htext derived _ =>
    obtain ⟨-, regular⟩ := List.forall_mem_cons.mp regular
    obtain ⟨stands, stand⟩ := stand
    have again : Lexeme.Stands text.image.toList (Node.charsParts parts ++ []) := by
      apply (stands htext).congr
      rw [List.append_nil]
      exact derived.opening_eq
    have all := (Scans.text htext again).append fun _ => derived.spelled regular stand
    rw [Node.chars_composite, Node.charsParts_cons, Node.chars_text]
    apply all.congr
    rw [Node.legible_composite, Node.legibleAll_cons, Node.legible_text]

end Grammar

namespace Template

open Grammar

variable {features : FeatureSet} {source : String} {t : Template} {tokens : List Token}
  {stop : Nat} {root : Node} {deferred : Bool}

/-- The tokens of a legible root's canonical text are a sentence with this root. -/
theorem tape_of_legible (sentence : Sentence features tokens root deferred)
    (spelled : Scanner.Scans root.Legible .text root.chars tokens .text [])
    (legible : root.Legible) :
    ∃ tokens' stop, tape root.canonical = ⟨tokens', .ok stop⟩ ∧
      Sentence features tokens' root deferred := by
  obtain ⟨tokens', stop, emits, proper, alike⟩ := spelled.reads legible 0
  rw [List.append_nil] at emits
  exact ⟨tokens', stop, emits.tape_of_ended proper rfl, sentence.alike alike⟩

/-- The canonical text of a compiled template compiles to the same template exactly if no node of
its tree is misread. -/
theorem compile_canonical_iff (compiled : compile features source = .ok t) :
    compile features t.canonical = .ok t ↔ ∀ y ∈ t.root.subnodes, y.isMisread = false := by
  obtain ⟨tokens, stop, root, deferred, scanned, sentence, fits, rfl⟩ :=
    compile_eq_ok_iff.mp compiled
  have onTape : (Scanner.ofChars source.toList).tape.tokens = tokens :=
    congrArg Tape.tokens scanned
  have regular := (Scanner.ofChars source.toList).regular_of_mem_tape
  have stand := (Scanner.ofChars source.toList).textsStand_tape
  rw [onTape] at regular stand
  have spelled := sentence.spelled regular stand
  have canonical : (ofRoot features root deferred).canonical = root.canonical :=
    Node.canonical_register .empty root
  have legible : (∀ y ∈ (ofRoot features root deferred).root.subnodes, y.isMisread = false) ↔
      root.Legible := Node.legible_register .empty root
  rw [canonical, legible]
  constructor
  · intro again
    by_contra illegible
    obtain ⟨tokens', stop', root', deferred', scanned', sentence', -, same⟩ :=
      compile_eq_ok_iff.mp again
    obtain ⟨rfl, rfl⟩ := ofRoot_inj sentence.erase_eq sentence'.erase_eq same
    have parted : root.isText = false := by
      cases root <;> first | rfl | exact absurd (Node.legible_text.mpr trivial) illegible
    have kinds : tokens.map Token.kind = tokens'.map Token.kind :=
      (sentence.kinds_eq parted).trans (sentence'.kinds_eq parted).symm
    have onTape' : (Scanner.ofChars root.canonical.toList).tape.tokens = tokens' :=
      congrArg Tape.tokens scanned'
    have wrong := spelled.misreads illegible 0
    rw [List.append_nil] at wrong
    apply wrong
    show _ <+: (Scanner.ofChars root.canonical.toList).tape.tokens.map Token.kind
    rw [onTape', kinds]
  · intro legible
    obtain ⟨tokens', stop', scanned', sentence'⟩ := tape_of_legible sentence spelled legible
    exact compile_eq_ok_iff.mpr ⟨tokens', stop', root, deferred, scanned', sentence', fits, rfl⟩

/-- A property of a number, with a space before its point. -/
theorem tape_of_property : tape "$\x7b1 .e5\x7d" =
    ⟨[⟨.startDynamic, "$\x7b", 0⟩, ⟨.integer, "1", 2⟩, ⟨.dot, ".", 4⟩, ⟨.identifier, "e5", 5⟩,
      ⟨.endEval, "\x7d", 7⟩], .ok 8⟩ :=
  Scanner.tape_of_steps 6 rfl

theorem compile_property : compile features "$\x7b1 .e5\x7d" =
    .ok (.ofRoot features (.eval false (.property (.literal (.integer 1)) "e5" false)) false) := by
  have literal : Derives features .primary [⟨.integer, "1", 2⟩, ⟨.dot, ".", 4⟩,
      ⟨.identifier, "e5", 5⟩, ⟨.endEval, "\x7d", 7⟩] [.literal (.integer 1)]
      [⟨.dot, ".", 4⟩, ⟨.identifier, "e5", 5⟩, ⟨.endEval, "\x7d", 7⟩] := .literal rfl
  have fits : (Node.property (.literal (.integer 1)) "e5" false).Fits 1 1 := by
    simp only [Node.Fits, Node.steps]
    decide
  exact compile_of_value tape_of_property rfl (.property (.primary literal) rfl rfl) rfl fits

/-- A variable is written back as it was read. Of a property on a number, the canonical text is
read as a float. -/
theorem compile_canonical_examples :
    (∃ t, compile .none "$\x7ba\x7d" = .ok t ∧ compile .none t.canonical = .ok t) ∧
    ∃ t, compile .none "$\x7b1 .e5\x7d" = .ok t ∧ compile .none t.canonical ≠ .ok t := by
  refine ⟨⟨_, compile_variable, ?_⟩, ⟨_, compile_property, ?_⟩⟩
  · exact (compile_canonical_iff compile_variable).mpr (by decide)
  · intro again
    have legible := (compile_canonical_iff compile_property).mp again
    exact absurd legible (by decide)

end Template

end ElTemplate
