import ElTemplate.Proofs.Grammar.Limits

/-!
# Moments of reading a tree

While the tokens of a tree are read, levels are open: of nesting, of the operators of a chain, and
of the access steps of a value. A moment tells how many of each; the moments of a tree follow from
the tree alone. What stands side by side is open at different moments, so it does not add up. The
tree fits the limits exactly if each of its moments does.
-/

namespace ElTemplate

/-- How many levels are open at one time. -/
structure Moment where
  /-- Expressions in brackets, indices, arguments and branches, and operands of unary operators. -/
  levels : Nat
  /-- Operators of chains that go on. -/
  folds : Nat
  /-- Access steps of values that go on. -/
  steps : Nat
deriving DecidableEq, Repr

namespace Moment

/-- Nothing is open yet. -/
def start : Moment :=
  ⟨0, 0, 0⟩

/-- The moment one level of nesting further in. -/
def nested (m : Moment) : Moment :=
  { m with levels := m.levels + 1 }

/-- The moment behind so many operators of a chain. -/
def folded (folds : Nat) (m : Moment) : Moment :=
  { m with folds := folds + m.folds }

/-- The moment behind so many access steps of a value. -/
def stepped (steps : Nat) (m : Moment) : Moment :=
  { m with steps := steps + m.steps }

/-- All that is open. -/
def depth (m : Moment) : Nat :=
  m.levels + m.folds + m.steps

/-- There is room for the moment where so much is open already. -/
def Within (nesting depth : Nat) (m : Moment) : Prop :=
  nesting + m.levels ≤ maxNesting ∧ depth + m.depth ≤ maxDepth

/-- There is room for all of the moments. -/
def AllWithin (nesting depth : Nat) (ms : List Moment) : Prop :=
  ∀ m ∈ ms, m.Within nesting depth

variable {nesting depth count : Nat} {m : Moment} {ms ms' : List Moment}

@[simp] theorem within_start :
    start.Within nesting depth ↔ nesting ≤ maxNesting ∧ depth ≤ maxDepth :=
  Iff.rfl

theorem within_nested : m.nested.Within nesting depth ↔ m.Within (nesting + 1) (depth + 1) := by
  simp only [Within, nested, Moment.depth]
  omega

theorem within_folded :
    (m.folded count).Within nesting depth ↔ m.Within nesting (depth + count) := by
  simp only [Within, folded, Moment.depth]
  omega

theorem within_stepped :
    (m.stepped count).Within nesting depth ↔ m.Within nesting (depth + count) := by
  simp only [Within, stepped, Moment.depth]
  omega

@[simp] theorem allWithin_nil : AllWithin nesting depth [] :=
  List.forall_mem_nil _

@[simp] theorem allWithin_cons :
    AllWithin nesting depth (m :: ms) ↔ m.Within nesting depth ∧ AllWithin nesting depth ms :=
  List.forall_mem_cons

@[simp] theorem allWithin_append : AllWithin nesting depth (ms ++ ms') ↔
    AllWithin nesting depth ms ∧ AllWithin nesting depth ms' :=
  List.forall_mem_append

@[simp] theorem allWithin_nested :
    AllWithin nesting depth (ms.map nested) ↔ AllWithin (nesting + 1) (depth + 1) ms := by
  simp only [AllWithin, List.forall_mem_map, within_nested]

@[simp] theorem allWithin_folded :
    AllWithin nesting depth (ms.map (folded count)) ↔ AllWithin nesting (depth + count) ms := by
  simp only [AllWithin, List.forall_mem_map, within_folded]

@[simp] theorem allWithin_stepped :
    AllWithin nesting depth (ms.map (stepped count)) ↔ AllWithin nesting (depth + count) ms := by
  simp only [AllWithin, List.forall_mem_map, within_stepped]

end Moment

namespace Node

mutual

/-- The moments while the node is read. An operator is open from its own token on, and so not while
the first operand of its chain is read; an access step is open from the end of its key on. -/
def moments : Node → List Moment
  | text _ => [.start]
  | literal _ => [.start]
  | identifier _ _ => [.start]
  | eval _ child => .start :: child.moments.map .nested
  | property base _ _ => base.moments ++ [Moment.start.stepped (base.steps + 1)]
  | item base key _ =>
    base.moments ++ (key.moments.map .nested).map (.stepped base.steps) ++
      [Moment.start.stepped (base.steps + 1)]
  | bracket inner => .start :: inner.moments.map .nested
  | unary _ operand => .start :: operand.moments.map .nested
  | binary op left right =>
    left.moments ++ right.moments.map (.folded (left.folds op.tier + 1))
  | ternary condition yes no =>
    condition.moments ++ yes.moments.map .nested ++ no.moments.map .nested
  | call _ _ _ arguments => .start :: momentsAll arguments
  | method target arguments => target.moments ++ (momentsAll arguments).map (.stepped target.steps)
  | composite parts => .start :: momentsParts parts

/-- The moments while arguments are read, one after the other. -/
def momentsAll : List Node → List Moment
  | [] => []
  | argument :: rest => argument.moments.map .nested ++ momentsAll rest

/-- The moments while the parts of a template are read, one after the other. -/
def momentsParts : List Node → List Moment
  | [] => []
  | part :: rest => part.moments ++ momentsParts rest

end

open Moment (AllWithin)

/-- The node can be read where so many levels are open. -/
def HasRoom (nesting depth : Nat) (x : Node) : Prop :=
  (nesting ≤ maxNesting ∧ depth ≤ maxDepth) ∧ x.Fits nesting depth

theorem hasRoom_deeper {nesting depth : Nat} {x : Node} : x.HasRoom (nesting + 1) (depth + 1) ↔
    nesting < maxNesting ∧ depth < maxDepth ∧ x.Fits (nesting + 1) (depth + 1) :=
  and_assoc

/-- A node with one operand that is one level further in. -/
theorem allWithin_around {nesting depth : Nat} {x : Node}
    (inner : AllWithin (nesting + 1) (depth + 1) x.moments ↔ x.HasRoom (nesting + 1) (depth + 1)) :
    AllWithin nesting depth (.start :: x.moments.map .nested) ↔
      (nesting ≤ maxNesting ∧ depth ≤ maxDepth) ∧
        nesting < maxNesting ∧ depth < maxDepth ∧ x.Fits (nesting + 1) (depth + 1) := by
  rw [Moment.allWithin_cons, Moment.within_start, Moment.allWithin_nested, inner, hasRoom_deeper]

mutual

/-- A tree fits the limits exactly if there is room for each of its moments. -/
theorem allWithin_moments (nesting depth : Nat) (x : Node) :
    AllWithin nesting depth x.moments ↔ x.HasRoom nesting depth := by
  cases x with
  | text raw => simp [moments, HasRoom, Fits]
  | literal value => simp [moments, HasRoom, Fits]
  | identifier name index => simp [moments, HasRoom, Fits]
  | eval deferred child =>
    rw [moments, HasRoom, Fits]
    exact allWithin_around (allWithin_moments _ _ child)
  | property base name assignable =>
    simp only [moments, Moment.allWithin_append, Moment.allWithin_cons, Moment.within_stepped,
      Moment.within_start, Moment.allWithin_nil, allWithin_moments _ _ base, HasRoom, Fits]
    grind
  | item base key assignable =>
    simp only [moments, Moment.allWithin_append, Moment.allWithin_cons, Moment.allWithin_stepped,
      Moment.allWithin_nested, Moment.within_stepped, Moment.within_start, Moment.allWithin_nil,
      allWithin_moments _ _ base, allWithin_moments _ _ key, HasRoom, Fits]
    grind
  | bracket inner =>
    rw [moments, HasRoom, Fits]
    exact allWithin_around (allWithin_moments _ _ inner)
  | unary op operand =>
    rw [moments, HasRoom, Fits]
    exact allWithin_around (allWithin_moments _ _ operand)
  | binary op left right =>
    simp only [moments, Moment.allWithin_append, Moment.allWithin_folded,
      allWithin_moments _ _ left, allWithin_moments _ _ right, HasRoom, Fits]
    grind
  | ternary condition yes no =>
    simp only [moments, Moment.allWithin_append, Moment.allWithin_nested,
      allWithin_moments _ _ condition, allWithin_moments _ _ yes, allWithin_moments _ _ no,
      HasRoom, Fits]
    grind
  | call qualifier name index arguments =>
    rw [moments, Moment.allWithin_cons, Moment.within_start, allWithin_momentsAll, HasRoom, Fits]
  | method target arguments =>
    rw [moments, Moment.allWithin_append, Moment.allWithin_stepped, allWithin_moments _ _ target,
      allWithin_momentsAll, HasRoom, HasRoom, Fits, and_assoc]
  | composite parts =>
    rw [moments, Moment.allWithin_cons, Moment.within_start, HasRoom, Fits]
    exact and_congr_right fun ⟨outer, room⟩ => allWithin_momentsParts outer room parts

theorem allWithin_momentsAll (nesting depth : Nat) (xs : List Node) :
    AllWithin nesting depth (momentsAll xs) ↔ FitAll nesting depth xs := by
  cases xs with
  | nil => simp [momentsAll, FitAll]
  | cons x xs =>
    simp only [momentsAll, FitAll, Moment.allWithin_append, Moment.allWithin_nested,
      allWithin_moments _ _ x, allWithin_momentsAll _ _ xs, hasRoom_deeper]

theorem allWithin_momentsParts {nesting depth : Nat} (outer : nesting ≤ maxNesting)
    (room : depth ≤ maxDepth) (xs : List Node) :
    AllWithin nesting depth (momentsParts xs) ↔ FitParts nesting depth xs := by
  cases xs with
  | nil => simp [momentsParts, FitParts]
  | cons x xs =>
    simp only [momentsParts, FitParts, Moment.allWithin_append, allWithin_moments _ _ x, HasRoom,
      outer, room, true_and, allWithin_momentsParts outer room xs]

end

end Node

end ElTemplate
