import ElTemplate.Proofs.Grammar.Limits
import ElTemplate.Proofs.Node.Canonical
import ElTemplate.Proofs.Node.Registration

/-!
# The parts of a template

A template is one text, one block, or several of both. As a sequence of parts, its text, its names
and its limits are those of the parts, one after the other.
-/

namespace ElTemplate.Node

/-- The parts of a template. A text or a block by itself is one part, and an empty text is none. -/
def parts : Node → List Node
  | composite parts => parts
  | text raw => if raw = "" then [] else [text raw]
  | x => [x]

variable {features : FeatureSet} {nesting depth : Nat}

theorem charsParts_append (xs ys : List Node) :
    charsParts (xs ++ ys) = charsParts xs ++ charsParts ys := by
  induction xs with
  | nil => rfl
  | cons x xs ih => rw [List.cons_append, charsParts_cons, charsParts_cons, ih, List.append_assoc]

theorem charsParts_parts (x : Node) : charsParts x.parts = x.chars := by
  have single : ∀ x : Node, charsParts [x] = x.chars := by
    intro x
    rw [charsParts_cons]
    exact List.append_nil _
  cases x with
  | text raw =>
    rw [parts]
    split
    · next empty =>
      rw [chars_text, empty]
      rfl
    · exact single _
  | composite xs => rw [parts, chars_composite]
  | _ => exact single _

theorem fitParts_append {xs ys : List Node} : FitParts nesting depth (xs ++ ys) ↔
    FitParts nesting depth xs ∧ FitParts nesting depth ys := by
  induction xs with
  | nil => simp [FitParts]
  | cons x xs ih => simp only [List.cons_append, FitParts, ih, and_assoc]

theorem fitParts_parts (x : Node) : FitParts nesting depth x.parts ↔ x.Fits nesting depth := by
  cases x with
  | text raw =>
    rw [parts]
    split <;> simp [FitParts, Fits]
  | composite xs => rw [parts, Fits]
  | _ => simp [parts, FitParts]

/-- The parts of a registered template are registered one after the other. -/
theorem register_parts (features : FeatureSet) (names : Names) (x : Node) :
    (x.register features names).1.parts = (registerAll features names x.parts).1 ∧
      (x.register features names).2 = (registerAll features names x.parts).2 := by
  cases x with
  | text raw =>
    simp only [register, parts]
    split <;> exact ⟨rfl, rfl⟩
  | _ => exact ⟨rfl, rfl⟩

theorem registerAll_append (names : Names) (xs ys : List Node) :
    registerAll features names (xs ++ ys) =
      ((registerAll features names xs).1 ++
        (registerAll features (registerAll features names xs).2 ys).1,
      (registerAll features (registerAll features names xs).2 ys).2) := by
  induction xs generalizing names with
  | nil => rfl
  | cons x xs ih => simp only [List.cons_append, registerAll, ih]

end ElTemplate.Node
