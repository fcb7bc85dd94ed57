import ElTemplate.Proofs.Node.Tree

/-!
# The grammar under other features

Methods are the only rule of the grammar that asks for a feature. So a tree without methods is
derived under all features, and more features take nothing away.
-/

namespace ElTemplate

/-- Whether the node is a method call. -/
def Node.isMethod : Node → Bool
  | .method .. => true
  | _ => false

namespace Grammar

/-- The second features allow the methods of these trees if the first ones do. -/
def Allows (features features' : FeatureSet) (nodes : List Node) : Prop :=
  features.methodInvocations →
    ∀ y ∈ Node.subnodesAll nodes, y.isMethod → features'.methodInvocations

variable {features features' : FeatureSet} {phrase : Phrase} {deferred : Bool}
  {ts rest : List Token} {nodes nodes' parts : List Node} {root part : Node}

theorem Allows.of_subset (allows : Allows features features' nodes)
    (subset : ∀ y ∈ Node.subnodesAll nodes', y ∈ Node.subnodesAll nodes) :
    Allows features features' nodes' :=
  fun enabled y member => allows enabled y (subset y member)

section Derivations

attribute [local simp] Node.subnodes Node.subnodesAll

/-- A derivation holds under all features that allow its methods. -/
theorem Derives.allowed (h : Derives features phrase ts nodes rest)
    (allows : Allows features features' nodes) : Derives features' phrase ts nodes rest := by
  induction h with
  | condition _ ih => exact .condition (ih allows)
  | ternary _ hquestion _ hcolon _ first second third =>
    have condition := first (allows.of_subset (by simp +contextual))
    have yes := second (allows.of_subset (by simp +contextual))
    have no := third (allows.of_subset (by simp +contextual))
    exact .ternary condition hquestion yes hcolon no
  | operand _ ih => exact .operand (ih allows)
  | lift _ ih => exact .lift (ih allows)
  | binary _ hop htier _ first second =>
    have left := first (allows.of_subset (by simp +contextual))
    have right := second (allows.of_subset (by simp +contextual))
    exact .binary left hop htier right
  | unary hop _ ih => exact .unary hop (ih (allows.of_subset (by simp +contextual)))
  | value _ ih => exact .value (ih allows)
  | primary _ ih => exact .primary (ih allows)
  | property _ hdot hname ih =>
    exact .property (ih (allows.of_subset (by simp +contextual))) hdot hname
  | item _ hopening _ hclosing first second =>
    have value := first (allows.of_subset (by simp +contextual))
    have index := second (allows.of_subset (by simp +contextual))
    exact .item value hopening index hclosing
  | @method _ _ _ target args _ access enabled _ first second =>
    have value := first (allows.of_subset (by simp +contextual))
    have arguments := second (allows.of_subset (by simp +contextual))
    exact .method value access (allows enabled (.method target args) (by simp) rfl) arguments
  | identifier hname alone => exact .identifier hname alone
  | call hname _ ih => exact .call hname (ih (allows.of_subset (by simp +contextual)))
  | qualifiedCall hqualifier hcolon hname _ ih =>
    exact .qualifiedCall hqualifier hcolon hname (ih (allows.of_subset (by simp +contextual)))
  | bracket hopening _ hclosing ih =>
    exact .bracket hopening (ih (allows.of_subset (by simp +contextual))) hclosing
  | literal hvalue => exact .literal hvalue
  | noArguments hopening hclosing => exact .noArguments hopening hclosing
  | arguments hopening _ _ hclosing first second =>
    have head := first (allows.of_subset (by simp +contextual))
    have tail := second (allows.of_subset (by simp +contextual))
    exact .arguments hopening head tail hclosing
  | noFurther => exact .noFurther
  | further hcomma _ _ first second =>
    have head := first (allows.of_subset (by simp +contextual))
    have tail := second (allows.of_subset (by simp +contextual))
    exact .further hcomma head tail

theorem Block.allowed (h : Block features deferred ts part rest)
    (allows : Allows features features' [part]) : Block features' deferred ts part rest := by
  cases h with
  | mk hopening expression hclosing =>
    exact .mk hopening (expression.allowed (allows.of_subset (by simp +contextual))) hclosing

theorem Parts.allowed (h : Parts features deferred ts parts)
    (allows : Allows features features' parts) : Parts features' deferred ts parts := by
  induction h with
  | nil => exact .nil
  | block first _ ih =>
    have more := ih (allows.of_subset (by simp +contextual))
    exact .block (first.allowed (allows.of_subset (by simp +contextual))) more
  | blockText first htext _ ih =>
    have more := ih (allows.of_subset (by simp +contextual))
    exact .blockText (first.allowed (allows.of_subset (by simp +contextual))) htext more

/-- A sentence holds under all features that allow its methods. -/
theorem Sentence.allowed (h : Sentence features ts root deferred)
    (allows : Allows features features' [root]) : Sentence features' ts root deferred := by
  cases h with
  | empty => exact .empty
  | text htext => exact .text htext
  | block block => exact .block (block.allowed allows)
  | parts derived several =>
    exact .parts (derived.allowed (allows.of_subset (by simp +contextual))) several
  | textParts htext derived some =>
    exact .textParts htext (derived.allowed (allows.of_subset (by simp +contextual))) some

end Derivations

end Grammar

end ElTemplate
