import ElTemplate.Proofs.Grammar.Shape
import ElTemplate.Proofs.Grammar.Spine
import ElTemplate.Proofs.Template.RoundTrip

/-!
# The height of compiled templates

The limit on depth does not bound the height of a tree, since a chain gives its levels back when it
ends. What bounds the height is both limits together, far above the limit on depth: every height up
to that bound occurs, and no greater one.
-/

namespace ElTemplate

namespace Grammar

variable {features : FeatureSet} {deferred : Bool} {ts rest : List Token} {parts : List Node}
  {part root child : Node}

/-- Whether some tokens begin with an expression that has this tree. -/
def Expressed (features : FeatureSet) (child : Node) : Prop :=
  ∃ ts rest, Derives features .expression ts [child] rest

theorem Block.expressed (h : Block features deferred ts part rest) {d : Bool}
    (member : .eval d child ∈ part.subnodes) (fits : part.Fits 0 0) :
    Expressed features child ∧ child.Fits 1 1 := by
  cases h with
  | @mk ts _ _ _ inner _ expression _ =>
    rcases List.mem_cons.mp member with same | below
    · cases same
      exact ⟨⟨_, _, expression⟩, fits.2.2⟩
    · cases expression.isExpression (.eval d child) below

theorem Parts.expressed (h : Parts features deferred ts parts) {d : Bool}
    (member : .eval d child ∈ Node.subnodesAll parts) (fits : Node.FitParts 0 0 parts) :
    Expressed features child ∧ child.Fits 1 1 := by
  induction h with
  | nil => cases member
  | block first _ ih =>
    rcases List.mem_append.mp member with inside | further
    · exact first.expressed inside fits.1
    · exact ih further fits.2
  | blockText first _ _ ih =>
    rcases List.mem_append.mp member with inside | further
    · exact first.expressed inside fits.1
    · rcases List.mem_append.mp further with inside | further
      · cases List.mem_singleton.mp inside
      · exact ih further fits.2.2

/-- What stands in a block of a sentence is an expression, which fits one level deep. -/
theorem Sentence.expressed (h : Sentence features ts root deferred) {d : Bool}
    (member : .eval d child ∈ root.subnodes) (fits : root.Fits 0 0) :
    Expressed features child ∧ child.Fits 1 1 := by
  cases h with
  | empty => cases List.mem_singleton.mp member
  | text _ => cases List.mem_singleton.mp member
  | block block => exact block.expressed member fits
  | parts derived _ =>
    rcases List.mem_cons.mp member with same | inside
    · cases same
    · exact derived.expressed inside fits
  | textParts _ derived _ =>
    rcases List.mem_cons.mp member with same | inside
    · cases same
    · rcases List.mem_append.mp inside with first | inside
      · cases List.mem_singleton.mp first
      · exact derived.expressed inside fits.2

end Grammar

namespace Template

open Grammar

variable {features : FeatureSet} {source : String} {t : Template} {child : Node} {d : Bool}

/-- The greatest height of an expression, which is one level deep in its block. -/
def maxHeight (features : FeatureSet) : Nat :=
  heightWithin features (maxNesting - 1) (maxDepth - 1)

theorem free_one : Free 1 1 (maxNesting - 1) (maxDepth - 1) := ⟨rfl, rfl⟩

theorem height_le_maxHeight (compiled : compile features source = .ok t)
    (member : .eval d child ∈ t.root.subnodes) : child.height ≤ maxHeight features := by
  obtain ⟨tokens, stop, root, deferred, -, sentence, fits, rfl⟩ := compile_eq_ok_iff.mp compiled
  have erased : .eval d child.erase ∈ root.subnodes := by
    have mapped := List.mem_map_of_mem (f := Node.erase) member
    rw [← Node.subnodes_erase] at mapped
    have same : (ofRoot features root deferred).root.erase = root :=
      (Node.erase_register .empty root).trans sentence.erase_eq
    rwa [same] at mapped
  obtain ⟨⟨ts, rest, derived⟩, fitsChild⟩ := sentence.expressed erased fits
  rw [← Node.height_erase]
  exact derived.low free_one fitsChild

/-- A path can be written down as the expression of a block. -/
theorem compile_of_spine {x : Node} (spine : Spine features .expression x) (fits : x.Fits 1 1) :
    compile features (Node.eval false x).canonical =
      .ok (ofRoot features (.eval false x) false) := by
  obtain ⟨ts, writable, derived⟩ := spine.written [⟨.endEval, "\x7d", 0⟩]
  have block : Block features false (⟨.startDynamic, "$\x7b", 0⟩ :: (ts ++ [⟨.endEval, "\x7d", 0⟩]))
      (.eval false x) [] := .mk rfl derived rfl
  have sentence := Sentence.block block
  have all : ∀ t ∈ (⟨.startDynamic, "$\x7b", 0⟩ :: (ts ++ [⟨.endEval, "\x7d", 0⟩]) : List Token),
      Writable t := by
    rw [List.forall_mem_cons, List.forall_mem_append, List.forall_mem_singleton]
    exact ⟨⟨nofun, trivial⟩, writable, nofun, trivial⟩
  have stand := Token.textsStand_of_ne fun t ht => (all t ht).1
  have spelled := sentence.spelled (fun t ht => (all t ht).2) stand
  have legible : (Node.eval false x).Legible := (Node.legible_eval false).mpr spine.legible
  obtain ⟨tokens, stop, scanned, again⟩ := tape_of_legible sentence spelled legible
  exact (compile_of_sentence scanned again).reaches (fits.eval false)

theorem maxHeight_eq (features : FeatureSet) :
    maxHeight features = if features.methodInvocations then 958207 else 838463 := by
  obtain ⟨methodInvocations, varargs⟩ := features
  cases methodInvocations <;> cases varargs <;> decide +kernel

/-- The heights of the expressions in compiled templates are those from one to a greatest height far
above the limit on depth. -/
theorem exists_height_iff (features : FeatureSet) (h : Nat) :
    (∃ source t d child, compile features source = .ok t ∧
        .eval d child ∈ t.root.subnodes ∧ child.height = h) ↔
      1 ≤ h ∧ h ≤ if features.methodInvocations then 958207 else 838463 := by
  rw [← maxHeight_eq]
  constructor
  · rintro ⟨source, t, d, child, compiled, member, rfl⟩
    exact ⟨child.height_pos, height_le_maxHeight compiled member⟩
  · rintro ⟨positive, small⟩
    obtain ⟨x, spine, fits, rfl⟩ := exists_spine free_one positive small
    refine ⟨_, _, false, (x.register features .empty).1, compile_of_spine spine fits,
      List.mem_cons_self .., ?_⟩
    rw [← Node.height_erase, Node.erase_register, Node.height_erase]

end Template

end ElTemplate
