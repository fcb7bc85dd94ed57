import ElTemplate.Proofs.Grammar.Recovery
import ElTemplate.Proofs.Template.RoundTrip

/-!
# What canonical text identifies

Two compiled templates have the same canonical text exactly if they agree in being deferred and
their trees become the same when the infinite number is put in place of the variables called
`Infinity`. So the text identifies a template, indices and inventories included, unless one tree has
an infinite number and the other a variable with its name.
-/

namespace ElTemplate

namespace Grammar

open Node (inlineAll)
open ParserState (before)
open Token (Kindred)

variable {features : FeatureSet} {deferred deferred' : Bool} {ts rest : List Token}
  {part root root' : Node} {parts : List Node}

/-- A block is recovered from its canonical text. -/
theorem Block.recovered (h : Block features deferred ts part rest) (regular : AllRegular ts) :
    ∃ vs, (∀ f, Decodes .text (part.chars ++ f) vs .text f) ∧
      ∀ rest', List.Forall₂ Kindred rest rest' → List.Forall₂ Kindred ts (vs ++ rest') ∧
        Block features deferred (vs ++ rest') (part.inline .infinity) rest' := by
  cases h with
  | @mk ts _ opening closing child hopening expression hclosing =>
    obtain ⟨us, decodes, derives⟩ := expression.recovered regular.tail
    obtain ⟨start, kind, starts⟩ := Decodes.start deferred
    refine ⟨start :: (us ++ [⟨.endEval, "\x7d", 0⟩]), ?_, ?_⟩
    · intro f
      have last : Decodes .block ('\x7d' :: f) [⟨.endEval, "\x7d", 0⟩] .text f :=
        .mark (by decide) .nil
      have all := (starts _).append ((decodes _ (.of_mem (by decide))).append last)
      simp only [Node.chars_eval, List.append_assoc, List.cons_append, List.nil_append]
      exact all
    · intro rest' kin
      obtain ⟨kin, expression⟩ := derives _ (.cons (Kindred.of_kind hclosing) kin)
      simp only [List.append_assoc, List.cons_append, List.nil_append]
      exact ⟨.cons (.inl (kind.trans hopening.symm)) kin, .mk kind expression rfl⟩

theorem Parts.recovered (h : Parts features deferred ts parts) (regular : AllRegular ts)
    (stand : Token.TextsStand ts) :
    ∃ vs, Decodes .text (Node.charsParts parts) vs .text [] ∧ List.Forall₂ Kindred ts vs ∧
      Parts features deferred vs (inlineAll .infinity parts) := by
  induction h with
  | nil => exact ⟨[], .nil, .nil, .nil⟩
  | @block ts rest part parts first _ ih =>
    obtain ⟨us, decodes, derives⟩ := first.recovered regular
    obtain ⟨ws, rfl⟩ := first.suffix
    obtain ⟨vs, more, kin, parts⟩ := ih (regular.suffix first.suffix) stand.of_append
    obtain ⟨kin, block⟩ := derives vs kin
    rw [Node.charsParts_cons]
    exact ⟨us ++ vs, (decodes _).append more, kin, .block block parts⟩
  | @blockText ts rest text part parts first htext derived ih =>
    obtain ⟨us, decodes, derives⟩ := first.recovered regular
    obtain ⟨ws, rfl⟩ := first.suffix
    obtain ⟨stands, stand⟩ := stand.of_append
    obtain ⟨vs, more, kin, parts⟩ := ih (regular.suffix first.suffix).tail stand
    have again := (stands htext).congr derived.opening_eq
    obtain ⟨kin, block⟩ := derives (⟨.text, text.image, 0⟩ :: vs)
      (.cons (Kindred.of_kind htext) kin)
    have recovered := Parts.blockText block rfl parts
    rw [Node.charsParts_cons, Node.charsParts_cons, Node.chars_text]
    exact ⟨us ++ ⟨.text, text.image, 0⟩ :: vs,
      (decodes _).append ((Decodes.text again).append more), kin, recovered⟩

/-- The canonical text of a sentence is decoded as a sentence whose root has the infinite number in
place of the variables with its name. -/
theorem Sentence.recovered (h : Sentence features ts root deferred) (regular : AllRegular ts)
    (stand : Token.TextsStand ts) :
    ∃ vs, Decodes .text root.chars vs .text [] ∧
      Sentence features vs (root.inline .infinity) deferred := by
  cases h with
  | empty => exact ⟨[], .nil, .empty⟩
  | @text text htext =>
    have decodes := Decodes.text (stand.1 htext)
    rw [Token.opening, List.append_nil] at decodes
    rw [Node.chars_text]
    exact ⟨[⟨.text, text.image, 0⟩], decodes, .text rfl⟩
  | block block =>
    obtain ⟨vs, decodes, derives⟩ := block.recovered regular
    have decoded := decodes []
    obtain ⟨-, derived⟩ := derives [] .nil
    rw [List.append_nil] at decoded derived
    exact ⟨vs, decoded, .block derived⟩
  | parts derived several =>
    obtain ⟨vs, decodes, -, parts⟩ := derived.recovered regular stand
    rw [Node.chars_composite]
    exact ⟨vs, decodes, .parts parts (by rwa [Node.length_inlineAll])⟩
  | @textParts _ ts text parts htext derived some =>
    obtain ⟨stands, stand⟩ := stand
    obtain ⟨vs, decodes, -, again⟩ := derived.recovered regular.tail stand
    have text := Decodes.text ((stands htext).congr derived.opening_eq)
    have others : inlineAll .infinity parts ≠ [] := by
      cases parts with
      | nil => exact absurd rfl some
      | cons _ _ => exact List.cons_ne_nil _ _
    rw [Node.chars_composite, Node.charsParts_cons, Node.chars_text]
    exact ⟨_, text.append decodes, .textParts rfl again others⟩

theorem Block.inline_none (h : Block features deferred ts part rest) :
    part.inline .none = part := by
  cases h with
  | mk _ expression _ =>
    have child := expression.inlineAll_none
    rw [inlineAll, inlineAll, List.cons.injEq] at child
    rw [Node.inline, child.1]

theorem Parts.inlineAll_none (h : Parts features deferred ts parts) :
    inlineAll .none parts = parts := by
  induction h with
  | nil => rfl
  | block first _ ih => rw [inlineAll, first.inline_none, ih]
  | blockText first _ _ ih => rw [inlineAll, inlineAll, Node.inline, first.inline_none, ih]

theorem Sentence.inline_none (h : Sentence features ts root deferred) :
    root.inline .none = root := by
  cases h with
  | empty => rfl
  | text _ => rfl
  | block block => exact block.inline_none
  | parts derived _ => rw [Node.inline, derived.inlineAll_none]
  | textParts _ derived _ => rw [Node.inline, inlineAll, Node.inline, derived.inlineAll_none]

/-- No two trees that fit the limits belong to the same tokens. -/
theorem Sentence.unique (first : Sentence features ts root deferred)
    (second : Sentence features ts root' deferred') (fits : root.Fits 0 0)
    (fits' : root'.Fits 0 0) : root = root' ∧ deferred = deferred' := by
  -- Both trees are what the parser reads from these tokens, up to the indices of names.
  have read : Parser.template features ts.length (before ts (.ok 0) .empty 0 0) = _ :=
    (first.leads (Nat.le_refl _)).reaches fits
  have read' : Parser.template features ts.length (before ts (.ok 0) .empty 0 0) = _ :=
    (second.leads (Nat.le_refl _)).reaches fits'
  have same := congrArg Prod.fst (Except.ok.inj (read.symm.trans read'))
  have erased := congrArg (fun result => Node.erase result.1) same
  refine ⟨?_, congrArg Prod.snd same⟩
  simpa only [Node.erase_register, first.erase_eq, second.erase_eq] using erased

end Grammar

namespace Template

open Grammar

variable {features : FeatureSet} {source source' : String} {t t' : Template}

/-- A compiled template belongs to a sentence that its canonical text tells, up to the infinite
number in place of the variables with its name. -/
theorem exists_recovered (compiled : compile features source = .ok t) :
    ∃ root vs, root.inline .none = root ∧ t = .ofRoot features root t.deferred ∧
      Decodes .text t.canonical.toList vs .text [] ∧
      Sentence features vs (root.inline .infinity) t.deferred ∧
      (root.inline .infinity).Fits 0 0 := by
  obtain ⟨tokens, stop, root, deferred, scanned, sentence, fits, rfl⟩ :=
    compile_eq_ok_iff.mp compiled
  have onTape : (Scanner.ofChars source.toList).tape.tokens = tokens :=
    congrArg Tape.tokens scanned
  have regular := (Scanner.ofChars source.toList).regular_of_mem_tape
  have stand := (Scanner.ofChars source.toList).textsStand_tape
  rw [onTape] at regular stand
  obtain ⟨vs, decodes, recovered⟩ := sentence.recovered regular stand
  have canonical : (ofRoot features root deferred).canonical = root.canonical :=
    Node.canonical_register .empty root
  refine ⟨root, vs, sentence.inline_none, rfl, ?_, recovered, (Node.fits_inline 0 0 root).mpr fits⟩
  rw [canonical]
  exact decodes

/-- Equal canonical texts mean equal trees up to the infinite number in place of the variables with
its name. Where no such variable and no infinite number can be confused, they mean equal
templates. -/
theorem canonical_eq_iff (compiled : compile features source = .ok t)
    (compiled' : compile features source' = .ok t') :
    (t.canonical = t'.canonical ↔
      t.deferred = t'.deferred ∧ t.root.inline .infinity = t'.root.inline .infinity) ∧
    (Node.Distinct .infinity t.root.subnodes t'.root.subnodes →
      (t.canonical = t'.canonical ↔ t = t')) := by
  obtain ⟨root, vs, plain, same, decodes, recovered, fits⟩ := exists_recovered compiled
  obtain ⟨root', vs', plain', same', decodes', recovered', fits'⟩ := exists_recovered compiled'
  have inlined : ∀ constants, t.root.inline constants = root.inline constants := by
    intro constants
    rw [same]
    exact Node.inline_register .empty root
  have inlined' : ∀ constants, t'.root.inline constants = root'.inline constants := by
    intro constants
    rw [same']
    exact Node.inline_register .empty root'
  have agree : t.canonical = t'.canonical →
      t.deferred = t'.deferred ∧ t.root.inline .infinity = t'.root.inline .infinity := by
    intro texts
    rw [texts] at decodes
    cases decodes.unique decodes'
    obtain ⟨roots, deferred⟩ := recovered.unique recovered' fits fits'
    exact ⟨deferred, by rw [inlined, inlined', roots]⟩
  refine ⟨⟨agree, ?_⟩, fun distinct => ⟨?_, congrArg canonical⟩⟩
  · rintro ⟨-, roots⟩
    have texts := congrArg Node.chars roots
    rw [Node.chars_inline Constants.spelled_infinity,
      Node.chars_inline Constants.spelled_infinity] at texts
    exact String.toList_inj.mp texts
  · intro texts
    obtain ⟨deferred, roots⟩ := agree texts
    have trees := Node.inline_none_congr Constants.spelled_infinity roots distinct
    rw [inlined, inlined', plain, plain'] at trees
    rw [same, same', trees, deferred]

/-- A float that exceeds all finite numbers is the infinite one. -/
theorem compile_infinite : compile features "$\x7b1e999\x7d" =
    .ok (.ofRoot features (.eval false (.literal (.float .infinity))) false) := by
  have scanned : Scanner.next ⟨.block, "1e999\x7d".toList, 2⟩ =
      (.ok ⟨.float, "1e999", 2⟩, ⟨.block, ['\x7d'], 7⟩) := rfl
  exact compile_of_value (tape_of_operand rfl scanned (by decide)) rfl (.primary (.literal rfl)) rfl
    trivial

theorem compile_infinityName : compile features "$\x7bInfinity\x7d" =
    .ok (.ofRoot features (.eval false (.identifier "Infinity" 0)) false) := by
  have scanned : Scanner.next ⟨.block, "Infinity\x7d".toList, 2⟩ =
      (.ok ⟨.identifier, "Infinity", 2⟩, ⟨.block, ['\x7d'], 10⟩) := rfl
  exact compile_of_value (tape_of_operand rfl scanned (by decide)) rfl
    (.primary (.identifier rfl nofun)) rfl trivial

/-- An infinite number and the variable with its name have the same canonical text. -/
theorem canonical_eq_of_infinite : ∃ t t', compile .none "$\x7b1e999\x7d" = .ok t ∧
    compile .none "$\x7bInfinity\x7d" = .ok t' ∧ t.canonical = t'.canonical ∧ t ≠ t' := by
  refine ⟨_, _, compile_infinite, compile_infinityName, by decide, ?_⟩
  intro same
  cases congrArg root same

/-- The two templates of the same text agree up to their names for the infinite number; a variable
with another name has another text. -/
theorem canonical_eq_iff_examples :
    (∃ t t', compile .none "$\x7b1e999\x7d" = .ok t ∧ compile .none "$\x7bInfinity\x7d" = .ok t' ∧
      t.root.inline .infinity = t'.root.inline .infinity) ∧
    ∃ t t', compile .none "$\x7b1e999\x7d" = .ok t ∧ compile .none "$\x7ba\x7d" = .ok t' ∧
      t.canonical ≠ t'.canonical := by
  refine ⟨⟨_, _, compile_infinite, compile_infinityName, ?_⟩,
    ⟨_, _, compile_infinite, compile_variable, ?_⟩⟩
  · exact ((canonical_eq_iff compile_infinite compile_infinityName).1.mp (by decide)).2
  · intro texts
    have same := ((canonical_eq_iff compile_infinite compile_variable).2 (by decide)).mp texts
    cases congrArg root same

end Template

end ElTemplate
