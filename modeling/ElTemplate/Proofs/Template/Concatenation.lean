import ElTemplate.Proofs.Grammar.Concatenation
import ElTemplate.Proofs.Template.RoundTrip
import ElTemplate.Proofs.Token.Junction

/-!
# Compiling sources behind one another

A source that ends with a block can be compiled together with one behind it. The result is the
first template with the parts of the second behind its own, and the names of both.
-/

namespace ElTemplate

namespace Token

/-- Where a token stands makes no difference to a parser. -/
theorem alike_shift (n : Nat) (t : Token) : t.Alike (t.shift n) :=
  ⟨rfl, fun _ => rfl, rfl⟩

theorem alike_map_shift (n : Nat) (ts : List Token) :
    List.Forall₂ Alike ts (ts.map (shift n)) := by
  rw [List.forall₂_map_right_iff, List.forall₂_same]
  exact fun t _ => alike_shift n t

/-- No text is empty. -/
theorem TextsStand.image_ne {ts : List Token} (h : TextsStand ts) :
    ∀ t ∈ ts, t.kind = .text → t.image ≠ "" := by
  intro t member text empty
  obtain ⟨f, some, -⟩ := h.stands t member text
  rw [empty] at some
  exact some rfl

/-- Whether a block begins with the token. -/
def isStart (t : Token) : Bool :=
  t.kind == .startDynamic || t.kind == .startDeferred

end Token

namespace Grammar

open ElTemplate.Parser (startKind)

variable {features : FeatureSet} {ts : List Token} {root : Node} {deferred : Bool}

/-- A template that is no text begins with a block, or with a text and a block. -/
theorem Sentence.exists_start (h : Sentence features ts root deferred)
    (block : root.isText = false) : ∃ (lead : Option Token) (start : Token) (more : List Token),
      ts = lead.toList ++ start :: more ∧ (∀ t ∈ lead, t.kind = .text) ∧
        start.kind = startKind deferred ∧ ts.find? Token.isStart = some start := by
  obtain ⟨lead, htext, ⟨-, rfl, -⟩ | ⟨us, parts, rfl, derived, some, -⟩⟩ := h.split
  · cases lead <;> cases block
  · obtain ⟨kind, -⟩ := derived.kindOf_eq.resolve_left fun none => some none.2
    cases us with
    | nil => exact absurd kind.symm (startKind_ne deferred).2
    | cons start more =>
      have opens : start.isStart := by
        rw [Token.isStart, show start.kind = startKind deferred from kind]
        cases deferred <;> rfl
      refine ⟨lead, start, more, rfl, htext, kind, ?_⟩
      cases lead with
      | none => exact List.find?_cons_of_pos opens
      | some t =>
        have other : ¬ t.isStart := by
          rw [Token.isStart, htext t rfl]
          exact Bool.false_ne_true
        exact (List.find?_cons_of_neg other).trans (List.find?_cons_of_pos opens)

end Grammar

namespace Template

open Grammar
open ElTemplate.Parser (startKind)

/-- The third template is the first one with the second one behind it. -/
structure Joins (features : FeatureSet) (t₁ t₂ t : Template) : Prop where
  deferred : t.deferred = t₁.deferred
  parts : t.root.parts = t₁.root.parts ++ Node.reindexAll (t.places features) t₂.root.parts
  identifiers : t.identifiers = t₁.identifiers ++ t₂.identifiers.filter (· ∉ t₁.identifiers)
  functions : t.functions = t₁.functions ++ t₂.functions.filter (· ∉ t₁.functions)
  canonical : t.canonical = t₁.canonical ++ t₂.canonical

variable {features : FeatureSet} {first second : String} {t₁ t₂ : Template} {tokens : List Token}
  {stop : Nat} {root root₁ root₂ : Node} {deferred deferred₁ deferred₂ : Bool}

/-- The parts of a template and its names, as its root's parts are registered. -/
theorem ofRoot_parts (features : FeatureSet) (root : Node) (deferred : Bool) :
    (ofRoot features root deferred).root.parts =
        (Node.registerAll features .empty root.parts).1 ∧
      (ofRoot features root deferred).identifiers =
        (Node.registerAll features .empty root.parts).2.identifiers.toList ∧
      (ofRoot features root deferred).functions =
        (Node.registerAll features .empty root.parts).2.functions.toList := by
  obtain ⟨parts, names⟩ := Node.register_parts features .empty root
  rw [← parts, ← names]
  exact ⟨rfl, rfl, rfl⟩

/-- A root with the parts of two others makes a template that joins theirs. -/
theorem ofRoot_joins (parted : root.parts = root₁.parts ++ root₂.parts) :
    Joins features (ofRoot features root₁ deferred₁) (ofRoot features root₂ deferred₂)
      (ofRoot features root deferred₁) := by
  obtain ⟨parts, identifiers, functions⟩ := ofRoot_parts features root deferred₁
  obtain ⟨parts₁, identifiers₁, functions₁⟩ := ofRoot_parts features root₁ deferred₁
  obtain ⟨parts₂, identifiers₂, functions₂⟩ := ofRoot_parts features root₂ deferred₂
  rw [parted, Node.registerAll_append] at parts identifiers functions
  constructor
  case deferred => rfl
  case parts =>
    rw [parts, parts₁, parts₂, places, identifiers, functions,
      Node.registerAll_fst root₂.parts (.refl _), Node.registerAll_fst root₂.parts (.refl _),
      Node.reindexAll_reindexAll]
    rfl
  case identifiers =>
    rw [identifiers, identifiers₁, identifiers₂, Node.registerAll_snd _ root₂.parts,
      Node.registerAll_snd .empty root₂.parts]
    exact Inventory.toList_registerAll_behind _
  case functions =>
    rw [functions, functions₁, functions₂, Node.registerAll_snd _ root₂.parts,
      Node.registerAll_snd .empty root₂.parts]
    exact Inventory.toList_registerAll_behind _
  case canonical =>
    have text (root : Node) (deferred : Bool) :
        (ofRoot features root deferred).canonical.toList = Node.charsParts root.parts := by
      rw [Node.charsParts_parts]
      exact congrArg String.toList (Node.canonical_register .empty root)
    rw [← String.toList_inj, String.toList_append, text, text, text, parted,
      Node.charsParts_append]

/-- Behind a source that ends with a block, a source has the tokens that it has by itself, but for
their places. -/
theorem tape_append (second : String) (scanned : tape first = ⟨tokens, .ok stop⟩)
    (closed : Closed tokens) :
    tape (first ++ second) = ⟨tokens ++ ((tape second).shift first.length).tokens,
      ((tape second).shift first.length).final⟩ := by
  rw [tape, String.toList_append, Scanner.tape_append scanned closed, String.length_toList]
  rfl

section Sources

variable {tokens' : List Token} {stop' : Nat} (scanned : tape first = ⟨tokens, .ok stop⟩)
  (closed : Closed tokens) (sentence : Sentence features tokens root₁ deferred₁)
  (fits : root₁.Fits 0 0) (scanned' : tape second = ⟨tokens', .ok stop'⟩)
  (sentence' : Sentence features tokens' root₂ deferred₂)

include scanned closed sentence fits scanned' sentence'

/-- Sources with the same blocks, or with a text as the second one, compile to a template that joins
theirs. -/
theorem compile_joins (fits' : root₂.Fits 0 0) (same : root₂.isText ∨ deferred₂ = deferred₁) :
    ∃ t, compile features (first ++ second) = .ok t ∧
      Joins features (ofRoot features root₁ deferred₁) (ofRoot features root₂ deferred₂) t := by
  have whole := tape_append second scanned closed
  rw [scanned'] at whole
  have stand : Token.TextsStand tokens' := by
    have stand := (Scanner.ofChars second.toList).textsStand_tape
    rwa [show (Scanner.ofChars second.toList).tape = _ from scanned'] at stand
  have nonempty : ∀ t ∈ tokens'.map (Token.shift first.length),
      t.kind = .text → t.image ≠ "" := by
    intro t member htext
    obtain ⟨u, scanned, rfl⟩ := List.mem_map.mp member
    exact stand.image_ne u scanned htext
  obtain ⟨root, both, parted⟩ := sentence.append closed
    (sentence'.alike (Token.alike_map_shift first.length tokens')) nonempty same
  have fit : root.Fits 0 0 := by
    rw [← Node.fitParts_parts, parted, Node.fitParts_append, Node.fitParts_parts,
      Node.fitParts_parts]
    exact ⟨fits, fits'⟩
  exact ⟨_, compile_eq_ok_iff.mpr ⟨_, _, root, deferred₁, whole, both, fit, rfl⟩,
    ofRoot_joins parted⟩

/-- Behind a source that ends with a block, a block with the other delimiter is refused. -/
theorem compile_refuses (block : root₂.isText = false) (other : deferred₂ ≠ deferred₁) :
    ∃ start, tokens'.find? Token.isStart = some start ∧
      compile features (first ++ second) =
        .error (.parse ⟨start.shift first.length, .oneOf [startKind deferred₁]⟩) := by
  have whole := tape_append second scanned closed
  rw [scanned'] at whole
  obtain ⟨lead, start, more, rfl, htext, kind, found⟩ := sentence'.exists_start block
  refine ⟨start, found, ?_⟩
  have moved : (lead.toList ++ start :: more).map (Token.shift first.length) =
      (lead.map (Token.shift first.length)).toList ++
        start.shift first.length :: more.map (Token.shift first.length) := by
    cases lead <;> rfl
  have moves : ∀ t ∈ lead.map (Token.shift first.length), t.kind = .text := by
    intro t member
    obtain ⟨u, found, rfl⟩ := Option.mem_map.mp member
    exact htext u found
  have foreign : (start.shift first.length).kind = startKind (!deferred₁) := by
    rw [← Bool.eq_not.mpr other]
    exact kind
  have short := length_tape_le (first ++ second)
  rw [whole] at short
  rw [Tape.shift, moved] at whole short
  rw [compile_of_tape whole, sentence.refuses foreign closed fits moves short]

end Sources

theorem isLiteralText_ofRoot (features : FeatureSet) (root : Node) (deferred : Bool) :
    (ofRoot features root deferred).isLiteralText = root.isText := by
  cases root <;> rfl

/-- A source behind one that ends with a block adds its parts and its new names to the first
template, and its canonical text to the first one's. If its blocks have the other delimiter, then
the first of them is refused. -/
theorem compile_append (compiled₁ : compile features first = .ok t₁)
    (compiled₂ : compile features second = .ok t₂)
    (closed : (tape first).tokens.getLast?.map Token.kind = some .endEval) :
    (t₂.isLiteralText ∨ t₂.deferred = t₁.deferred →
      ∃ t, compile features (first ++ second) = .ok t ∧ Joins features t₁ t₂ t) ∧
    (t₂.isLiteralText = false → t₂.deferred ≠ t₁.deferred →
      ∃ start, (tape second).tokens.find? Token.isStart = some start ∧
        compile features (first ++ second) =
          .error (.parse ⟨start.shift first.length, .oneOf [startKind t₁.deferred]⟩)) := by
  obtain ⟨tokens, stop, root₁, deferred₁, scanned, sentence, fits, rfl⟩ :=
    compile_eq_ok_iff.mp compiled₁
  obtain ⟨tokens', stop', root₂, deferred₂, scanned', sentence', fits', rfl⟩ :=
    compile_eq_ok_iff.mp compiled₂
  rw [scanned] at closed
  rw [isLiteralText_ofRoot, scanned']
  constructor
  · exact compile_joins scanned closed sentence fits scanned' sentence' fits'
  · exact compile_refuses scanned closed sentence fits scanned' sentence'

theorem tape_of_deferred : tape "#\x7ba\x7d" =
    ⟨[⟨.startDeferred, "#\x7b", 0⟩, ⟨.identifier, "a", 2⟩, ⟨.endEval, "\x7d", 3⟩], .ok 4⟩ :=
  Scanner.tape_of_steps 4 rfl

theorem compile_deferred : compile features "#\x7ba\x7d" =
    .ok (.ofRoot features (.eval true (.identifier "a" 0)) true) := by
  have sentence : Sentence features [⟨.startDeferred, "#\x7b", 0⟩, ⟨.identifier, "a", 2⟩,
      ⟨.endEval, "\x7d", 3⟩] (.eval true (.identifier "a" 0)) true :=
    .ofValue rfl (.primary (.identifier rfl nofun)) rfl
  have fits : (Node.identifier "a" 0).Fits 1 1 := trivial
  exact (compile_of_sentence tape_of_deferred sentence).reaches (fits.eval true)

/-- A variable behind a variable, and one with the other delimiter behind it. -/
theorem compile_append_variable :
    (∃ t t', compile .none "$\x7ba\x7d" = .ok t ∧
      compile .none ("$\x7ba\x7d" ++ "$\x7ba\x7d") = .ok t' ∧ Joins .none t t t') ∧
    compile .none ("$\x7ba\x7d" ++ "#\x7ba\x7d") =
      .error (.parse ⟨⟨.startDeferred, "#\x7b", 4⟩, .oneOf [.startDynamic]⟩) := by
  have closed : (tape "$\x7ba\x7d").tokens.getLast?.map Token.kind = some .endEval := by
    rw [tape_of_variable]
    rfl
  constructor
  · obtain ⟨t, compiled, joins⟩ :=
      (compile_append compile_variable compile_variable closed).1 (.inr rfl)
    exact ⟨_, t, compile_variable, compiled, joins⟩
  · obtain ⟨start, found, refused⟩ :=
      (compile_append compile_variable compile_deferred closed).2 rfl nofun
    rw [tape_of_deferred] at found
    cases found
    exact refused

end Template

end ElTemplate
