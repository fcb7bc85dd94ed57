import ElTemplate.Parser.Error
import ElTemplate.Proofs.Grammar.Basic

/-!
# What the limits ask of a tree

Reading a tree opens levels. Expressions in parentheses, brackets or arguments, the branches of a
conditional, and operands of unary operators open a level of nesting, which is also a level of
depth. A binary operator or an access step opens a level of depth for the rest of its chain. The
levels of a chain are not open while its first operand is read. Both counts follow from the tree
alone.
-/

namespace ElTemplate.Node

/-- The number of operators of one tier that the node's chain ends with. -/
def folds (tier : Nat) : Node → Nat
  | binary op left _ => if op.tier = tier then left.folds tier + 1 else 0
  | _ => 0

/-- The number of access steps that the node ends with. -/
def steps : Node → Nat
  | property base _ _ => base.steps + 1
  | item base _ _ => base.steps + 1
  | method target _ => target.steps
  | _ => 0

mutual

/-- Whether the node can be read while this many levels are open. -/
def Fits (nesting depth : Nat) : Node → Prop
  | text _ => True
  | literal _ => True
  | identifier _ _ => True
  | eval _ child => nesting < maxNesting ∧ depth < maxDepth ∧ child.Fits (nesting + 1) (depth + 1)
  | property base _ _ => base.Fits nesting depth ∧ depth + base.steps < maxDepth
  | item base key _ =>
    base.Fits nesting depth ∧
      (nesting < maxNesting ∧ depth + base.steps < maxDepth ∧
        key.Fits (nesting + 1) (depth + base.steps + 1)) ∧
      depth + base.steps < maxDepth
  | bracket inner => nesting < maxNesting ∧ depth < maxDepth ∧ inner.Fits (nesting + 1) (depth + 1)
  | unary _ operand =>
    nesting < maxNesting ∧ depth < maxDepth ∧ operand.Fits (nesting + 1) (depth + 1)
  | binary op left right =>
    left.Fits nesting depth ∧ depth + left.folds op.tier < maxDepth ∧
      right.Fits nesting (depth + left.folds op.tier + 1)
  | ternary condition yes no =>
    condition.Fits nesting depth ∧
      (nesting < maxNesting ∧ depth < maxDepth ∧ yes.Fits (nesting + 1) (depth + 1)) ∧
      (nesting < maxNesting ∧ depth < maxDepth ∧ no.Fits (nesting + 1) (depth + 1))
  | call _ _ _ arguments => FitAll nesting depth arguments
  | method target arguments =>
    target.Fits nesting depth ∧ FitAll nesting (depth + target.steps) arguments
  | composite parts => FitParts nesting depth parts

/-- Whether arguments can be read, each as an expression of its own. -/
def FitAll (nesting depth : Nat) : List Node → Prop
  | [] => True
  | argument :: rest =>
    (nesting < maxNesting ∧ depth < maxDepth ∧ argument.Fits (nesting + 1) (depth + 1)) ∧
      FitAll nesting depth rest

/-- Whether the parts of a template can be read one after the other. -/
def FitParts (nesting depth : Nat) : List Node → Prop
  | [] => True
  | part :: rest => part.Fits nesting depth ∧ FitParts nesting depth rest

end

/-- Whether the node can be read as an expression of its own. -/
def FitsWithin (nesting depth : Nat) (x : Node) : Prop :=
  nesting < maxNesting ∧ depth < maxDepth ∧ x.Fits (nesting + 1) (depth + 1)

/-- A block of its own is one level. -/
theorem Fits.eval {x : Node} (fits : x.Fits 1 1) (deferred : Bool) :
    (eval deferred x).Fits 0 0 := by
  rw [Fits]
  exact ⟨by decide, by decide, fits⟩

end ElTemplate.Node
