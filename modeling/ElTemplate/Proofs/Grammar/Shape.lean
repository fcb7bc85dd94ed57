import ElTemplate.Proofs.Grammar.Concatenation

/-!
# The shape of templates

Texts and blocks stand at the top of a template only. A template is one of them, or a sequence in
which no two texts are next to each other. This is a matter of the grammar, and the indices of names
have no part in it.
-/

namespace ElTemplate

namespace Node

/-- Whether the node belongs outside of expressions. -/
def isOuter : Node → Bool
  | text _ => true
  | eval _ _ => true
  | composite _ => true
  | _ => false

/-- The node and all nodes below it are expressions. -/
def IsExpression (x : Node) : Prop :=
  ∀ y ∈ x.subnodes, y.isOuter = false

/-- A part of a template: some text, or a block around an expression. -/
inductive IsPart (deferred : Bool) : Node → Prop
  | text {raw : String} (some : raw ≠ "") : IsPart deferred (.text raw)
  | block {child : Node} (inner : child.IsExpression) : IsPart deferred (.eval deferred child)

/-- A whole template: a text, a block, or a sequence of several parts with a block among them and no
text behind a text. A template without a block is not deferred. -/
inductive IsTemplate : Node → Bool → Prop
  | text (raw : String) : IsTemplate (.text raw) false
  | block {deferred : Bool} {child : Node} (inner : child.IsExpression) :
      IsTemplate (.eval deferred child) deferred
  | composite {deferred : Bool} {parts : List Node} (several : 2 ≤ parts.length)
      (each : ∀ part ∈ parts, IsPart deferred part) (some : ∃ part ∈ parts, part.isBlock)
      (apart : parts.IsChain fun a b => a.isText → b.isText = false) :
      IsTemplate (.composite parts) deferred

variable {places : Places} {x : Node} {xs : List Node} {deferred : Bool}

theorem isOuter_reindex (places : Places) (x : Node) : (x.reindex places).isOuter = x.isOuter := by
  cases x <;> rfl

theorem isText_reindex (places : Places) (x : Node) : (x.reindex places).isText = x.isText := by
  cases x <;> rfl

theorem isBlock_reindex (places : Places) (x : Node) : (x.reindex places).isBlock = x.isBlock := by
  cases x <;> rfl

theorem reindexAll_eq_map (places : Places) (xs : List Node) :
    reindexAll places xs = xs.map (reindex places) := by
  induction xs with
  | nil => rfl
  | cons x xs ih => rw [reindexAll, List.map_cons, ih]

theorem IsExpression.reindex (h : x.IsExpression) : (x.reindex places).IsExpression := by
  rw [IsExpression, subnodes_reindex, List.forall_mem_map]
  exact fun y member => (isOuter_reindex places y).trans (h y member)

theorem IsPart.reindex (h : x.IsPart deferred) : (x.reindex places).IsPart deferred := by
  cases h with
  | text some => exact .text some
  | block inner => exact .block inner.reindex

/-- Indices do not change the shape of a template. -/
theorem IsTemplate.reindex (h : x.IsTemplate deferred) :
    (x.reindex places).IsTemplate deferred := by
  cases h with
  | text raw => exact .text raw
  | block inner => exact .block inner.reindex
  | composite several each some apart =>
    rw [Node.reindex, reindexAll_eq_map]
    constructor
    case several => rwa [List.length_map]
    case each => exact List.forall_mem_map.mpr fun part member => (each part member).reindex
    case some =>
      obtain ⟨part, member, block⟩ := some
      exact ⟨_, List.mem_map_of_mem member, (isBlock_reindex places part).trans block⟩
    case apart =>
      rw [List.isChain_map]
      simpa only [isText_reindex] using apart

end Node

namespace Grammar

variable {features : FeatureSet} {phrase : Phrase} {deferred : Bool} {ts rest : List Token}
  {nodes parts : List Node} {part root : Node}

/-- What a phrase stands for are expressions. -/
theorem Derives.isOuter_eq_false (h : Derives features phrase ts nodes rest) :
    ∀ y ∈ Node.subnodesAll nodes, y.isOuter = false := by
  induction h with
  | noArguments => exact nofun
  | noFurther => exact nofun
  | _ => simp_all [Node.subnodesAll, Node.subnodes, Node.isOuter, or_imp]

theorem Derives.isExpression {x : Node} (h : Derives features phrase ts [x] rest) :
    x.IsExpression := by
  refine fun y member => h.isOuter_eq_false y ?_
  rwa [Node.subnodesAll, Node.subnodesAll, List.append_nil]

theorem Block.isPart (h : Block features deferred ts part rest) : part.IsPart deferred := by
  cases h with
  | mk _ expression _ => exact .block expression.isExpression

theorem Block.isBlock_eq_true (h : Block features deferred ts part rest) : part.isBlock = true := by
  cases h with
  | mk _ _ _ => rfl

theorem Block.isText_eq_false (h : Block features deferred ts part rest) : part.isText = false := by
  cases h with
  | mk _ _ _ => rfl

theorem Parts.isPart (h : Parts features deferred ts parts)
    (nonempty : ∀ t ∈ ts, t.kind = .text → t.image ≠ "") :
    ∀ part ∈ parts, part.IsPart deferred := by
  induction h with
  | nil => exact List.forall_mem_nil _
  | block first _ ih =>
    have behind := fun t member => nonempty t (first.suffix.subset member)
    exact List.forall_mem_cons.mpr ⟨first.isPart, ih behind⟩
  | @blockText ts rest text part parts first htext _ ih =>
    have behind := fun t member => nonempty t (first.suffix.subset member)
    have some := behind text List.mem_cons_self htext
    have more := ih fun t member => behind t (List.mem_cons_of_mem _ member)
    exact List.forall_mem_cons.mpr ⟨first.isPart, List.forall_mem_cons.mpr ⟨.text some, more⟩⟩

/-- Blocks begin with a block. -/
theorem Parts.isText_head (h : Parts features deferred ts parts) :
    ∀ part ∈ parts.head?, part.isText = false := by
  cases h with
  | nil => exact nofun
  | block first _ => simpa using first.isText_eq_false
  | blockText first _ _ => simpa using first.isText_eq_false

theorem Parts.apart (h : Parts features deferred ts parts) :
    parts.IsChain fun a b => a.isText → b.isText = false := by
  induction h with
  | nil => exact .nil
  | block first _ ih =>
    exact List.isChain_cons.mpr ⟨fun _ _ text => absurd text (by simp [first.isText_eq_false]), ih⟩
  | blockText first _ more ih =>
    refine List.isChain_cons.mpr ⟨fun _ _ text => absurd text (by simp [first.isText_eq_false]), ?_⟩
    exact List.isChain_cons.mpr ⟨fun part member _ => more.isText_head part member, ih⟩

theorem Parts.exists_isBlock (h : Parts features deferred ts parts) (some : parts ≠ []) :
    ∃ part ∈ parts, part.isBlock := by
  cases h with
  | nil => exact absurd rfl some
  | block first _ => exact ⟨_, List.mem_cons_self, first.isBlock_eq_true⟩
  | blockText first _ _ => exact ⟨_, List.mem_cons_self, first.isBlock_eq_true⟩

/-- The tree of a sentence has the shape of a template. -/
theorem Sentence.isTemplate (h : Sentence features ts root deferred)
    (nonempty : ∀ t ∈ ts, t.kind = .text → t.image ≠ "") : root.IsTemplate deferred := by
  cases h with
  | empty => exact .text ""
  | text _ => exact .text _
  | block block =>
    cases block with
    | mk _ expression _ => exact .block expression.isExpression
  | parts derived several =>
    have some := derived.exists_isBlock (List.ne_nil_of_length_pos (Nat.zero_lt_of_lt several))
    exact .composite several (derived.isPart nonempty) some derived.apart
  | @textParts _ ts text parts htext derived some =>
    obtain ⟨first, behind⟩ := List.forall_mem_cons.mp nonempty
    obtain ⟨part, member, block⟩ := derived.exists_isBlock some
    constructor
    case several => exact Nat.succ_le_succ (List.length_pos_iff.mpr some)
    case each => exact List.forall_mem_cons.mpr ⟨.text (first htext), derived.isPart behind⟩
    case some => exact ⟨part, List.mem_cons_of_mem _ member, block⟩
    case apart =>
      exact List.isChain_cons.mpr
        ⟨fun part member _ => derived.isText_head part member, derived.apart⟩

end Grammar

end ElTemplate
