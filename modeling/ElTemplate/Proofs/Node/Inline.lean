import ElTemplate.Proofs.Grammar.Limits
import ElTemplate.Proofs.Node.Canonical

/-!
# Constants in place of variables

Some names can be taken for constants: where a variable has such a name, the constant's literal is
put in its place. A tree keeps its canonical text that way if every constant is spelled like its
name, and always the levels it opens. What is an assignable access follows from the tree anew, since
no access to a literal is one. Two trees that become the same differ at most where one has a
constant and the other its name.
-/

namespace ElTemplate

/-- The literals that some names stand for. -/
abbrev Constants := String → Option Literal

namespace Binary64

/-- The infinite number without a sign. -/
def infinity : Binary64 :=
  ofMagnitude infinityPattern

theorem eq_infinity {x : Binary64} (unsigned : x.isNegative = false) (infinite : x.isInfinite) :
    x = infinity := by
  have below : x.bits.toNat < 2 ^ 63 := by
    simpa [isNegative] using unsigned
  have pattern : x.bits.toNat = infinityPattern := by
    have found : x.magnitude = infinityPattern := beq_iff_eq.mp infinite
    rwa [magnitude, Nat.mod_eq_of_lt below] at found
  obtain ⟨bits⟩ := x
  exact congrArg mk (UInt64.toNat_inj.mp pattern)

end Binary64

namespace Constants

/-- No name stands for a literal. -/
def none : Constants := fun _ => Option.none

/-- The infinite number as a constant by the name `Infinity`, which is its spelling. -/
def infinity : Constants := fun name =>
  if name = "Infinity" then some (.float .infinity) else Option.none

/-- Every constant is spelled like its name. -/
def Spelled (constants : Constants) : Prop :=
  ∀ name value, constants name = some value → value.spelling = name

theorem spelled_infinity : infinity.Spelled := by
  intro name value found
  rw [infinity] at found
  split at found
  · next same =>
    cases found
    rw [same]
    exact Binary64.spell_of_isInfinite (by decide) (by decide)
  · cases found

end Constants

namespace Node

mutual

/-- The tree with constants in place of the variables with their names, and without indices. -/
def inline (constants : Constants) : Node → Node
  | text raw => text raw
  | eval deferred child => eval deferred (child.inline constants)
  | literal value => literal value
  | identifier name _ => ((constants name).map literal).getD (identifier name 0)
  | property base name _ =>
    property (base.inline constants) name (!(base.inline constants).isLiteral)
  | item base key _ =>
    item (base.inline constants) (key.inline constants) (!(base.inline constants).isLiteral)
  | bracket inner => bracket (inner.inline constants)
  | unary op operand => unary op (operand.inline constants)
  | binary op left right => binary op (left.inline constants) (right.inline constants)
  | ternary condition yes no =>
    ternary (condition.inline constants) (yes.inline constants) (no.inline constants)
  | call qualifier name _ arguments => call qualifier name 0 (inlineAll constants arguments)
  | method target arguments => method (target.inline constants) (inlineAll constants arguments)
  | composite parts => composite (inlineAll constants parts)

/-- The trees with constants in place of variables. -/
def inlineAll (constants : Constants) : List Node → List Node
  | [] => []
  | node :: rest => node.inline constants :: inlineAll constants rest

end

variable {constants : Constants}

theorem inline_identifier (constants : Constants) (name : String) (index : Nat) :
    (identifier name index).inline constants = identifier name 0 ∨
      ∃ value, constants name = some value ∧
        (identifier name index).inline constants = literal value := by
  rw [inline]
  cases constants name with
  | none => exact .inl rfl
  | some value => exact .inr ⟨value, rfl, rfl⟩

@[simp] theorem length_inlineAll (constants : Constants) (xs : List Node) :
    (inlineAll constants xs).length = xs.length := by
  induction xs with
  | nil => rfl
  | cons x xs ih => rw [inlineAll, List.length_cons, List.length_cons, ih]

@[simp] theorem isAccess_inline (constants : Constants) (x : Node) :
    (x.inline constants).isAccess = x.isAccess := by
  cases x with
  | identifier name index =>
    rcases inline_identifier constants name index with same | ⟨value, -, same⟩ <;> rw [same] <;> rfl
  | _ => rfl

@[simp] theorem folds_inline (constants : Constants) (tier : Nat) (x : Node) :
    (x.inline constants).folds tier = x.folds tier := by
  cases x with
  | identifier name index =>
    rcases inline_identifier constants name index with same | ⟨value, -, same⟩ <;> rw [same] <;> rfl
  | binary op left right => simp only [inline, folds, folds_inline constants tier left]
  | _ => rfl

@[simp] theorem steps_inline (constants : Constants) (x : Node) :
    (x.inline constants).steps = x.steps := by
  cases x with
  | identifier name index =>
    rcases inline_identifier constants name index with same | ⟨value, -, same⟩ <;> rw [same] <;> rfl
  | property base name assignable => simp only [inline, steps, steps_inline constants base]
  | item base key assignable => simp only [inline, steps, steps_inline constants base]
  | method target arguments => simp only [inline, steps, steps_inline constants target]
  | _ => rfl

mutual

/-- A constant opens no more levels than its name. -/
theorem fits_inline (nesting depth : Nat) (x : Node) :
    (x.inline constants).Fits nesting depth ↔ x.Fits nesting depth := by
  cases x with
  | text raw => rfl
  | eval deferred child => simp only [inline, Fits, fits_inline _ _ child]
  | literal value => rfl
  | identifier name index =>
    rcases inline_identifier constants name index with same | ⟨value, -, same⟩ <;>
      simp only [same, Fits]
  | property base name assignable => simp only [inline, Fits, steps_inline, fits_inline _ _ base]
  | item base key assignable =>
    simp only [inline, Fits, steps_inline, fits_inline _ _ base, fits_inline _ _ key]
  | bracket inner => simp only [inline, Fits, fits_inline _ _ inner]
  | unary op operand => simp only [inline, Fits, fits_inline _ _ operand]
  | binary op left right =>
    simp only [inline, Fits, folds_inline, fits_inline _ _ left, fits_inline _ _ right]
  | ternary condition yes no =>
    simp only [inline, Fits, fits_inline _ _ condition, fits_inline _ _ yes, fits_inline _ _ no]
  | call qualifier name index arguments =>
    simp only [inline, Fits, fitAll_inlineAll _ _ arguments]
  | method target arguments =>
    simp only [inline, Fits, steps_inline, fits_inline _ _ target, fitAll_inlineAll _ _ arguments]
  | composite parts => simp only [inline, Fits, fitParts_inlineAll _ _ parts]

theorem fitAll_inlineAll (nesting depth : Nat) (xs : List Node) :
    FitAll nesting depth (inlineAll constants xs) ↔ FitAll nesting depth xs := by
  cases xs with
  | nil => rfl
  | cons x xs => simp only [inlineAll, FitAll, fits_inline _ _ x, fitAll_inlineAll _ _ xs]

theorem fitParts_inlineAll (nesting depth : Nat) (xs : List Node) :
    FitParts nesting depth (inlineAll constants xs) ↔ FitParts nesting depth xs := by
  cases xs with
  | nil => rfl
  | cons x xs => simp only [inlineAll, FitParts, fits_inline _ _ x, fitParts_inlineAll _ _ xs]

end

mutual

/-- Indices are left behind. -/
theorem inline_erase (x : Node) : x.erase.inline constants = x.inline constants := by
  cases x with
  | text raw => rfl
  | eval deferred child => simp only [erase, inline, inline_erase child]
  | literal value => rfl
  | identifier name index => simp only [erase, inline]
  | property base name assignable => simp only [erase, inline, inline_erase base]
  | item base key assignable => simp only [erase, inline, inline_erase base, inline_erase key]
  | bracket inner => simp only [erase, inline, inline_erase inner]
  | unary op operand => simp only [erase, inline, inline_erase operand]
  | binary op left right => simp only [erase, inline, inline_erase left, inline_erase right]
  | ternary condition yes no =>
    simp only [erase, inline, inline_erase condition, inline_erase yes, inline_erase no]
  | call qualifier name index arguments =>
    simp only [erase, inline, inlineAll_eraseAll arguments]
  | method target arguments =>
    simp only [erase, inline, inline_erase target, inlineAll_eraseAll arguments]
  | composite parts => simp only [erase, inline, inlineAll_eraseAll parts]

theorem inlineAll_eraseAll (xs : List Node) :
    inlineAll constants (eraseAll xs) = inlineAll constants xs := by
  cases xs with
  | nil => rfl
  | cons x xs => simp only [eraseAll, inlineAll, inline_erase x, inlineAll_eraseAll xs]

end

theorem inline_register {features : FeatureSet} (names : Names) (x : Node) :
    (x.register features names).1.inline constants = x.inline constants := by
  rw [← inline_erase, erase_register, inline_erase]

mutual

/-- Constants that are spelled like their names leave the canonical text as it is. -/
theorem chars_inline (spelled : constants.Spelled) (x : Node) :
    (x.inline constants).chars = x.chars := by
  cases x with
  | text raw => rfl
  | eval deferred child => simp only [inline, chars_eval, chars_inline spelled child]
  | literal value => rfl
  | identifier name index =>
    rcases inline_identifier constants name index with same | ⟨value, found, same⟩
    · rw [same, chars_identifier, chars_identifier]
    · rw [same, chars_literal, chars_identifier, spelled name value found]
  | property base name assignable => simp only [inline, chars_property, chars_inline spelled base]
  | item base key assignable =>
    simp only [inline, chars_item, chars_inline spelled base, chars_inline spelled key]
  | bracket inner => simp only [inline, chars_bracket, chars_inline spelled inner]
  | unary op operand => simp only [inline, chars_unary, chars_inline spelled operand]
  | binary op left right =>
    simp only [inline, chars_binary, chars_inline spelled left, chars_inline spelled right]
  | ternary condition yes no =>
    simp only [inline, chars_ternary, chars_inline spelled condition, chars_inline spelled yes,
      chars_inline spelled no]
  | call qualifier name index arguments =>
    cases qualifier with
    | none => simp only [inline, chars_call, charsArguments_inlineAll spelled arguments]
    | some qualifier =>
      simp only [inline, chars_qualifiedCall, charsArguments_inlineAll spelled arguments]
  | method target arguments =>
    simp only [inline, chars_method, chars_inline spelled target,
      charsArguments_inlineAll spelled arguments]
  | composite parts => simp only [inline, chars_composite, charsParts_inlineAll spelled parts]

theorem charsArguments_inlineAll (spelled : constants.Spelled) (xs : List Node) :
    charsArguments (inlineAll constants xs) = charsArguments xs := by
  cases xs with
  | nil => rfl
  | cons x xs =>
    simp only [inlineAll, charsArguments_cons, chars_inline spelled x,
      charsFurther_inlineAll spelled xs]

theorem charsFurther_inlineAll (spelled : constants.Spelled) (xs : List Node) :
    charsFurther (inlineAll constants xs) = charsFurther xs := by
  cases xs with
  | nil => rfl
  | cons x xs =>
    simp only [inlineAll, charsFurther_cons, chars_inline spelled x,
      charsFurther_inlineAll spelled xs]

theorem charsParts_inlineAll (spelled : constants.Spelled) (xs : List Node) :
    charsParts (inlineAll constants xs) = charsParts xs := by
  cases xs with
  | nil => rfl
  | cons x xs =>
    simp only [inlineAll, charsParts_cons, chars_inline spelled x, charsParts_inlineAll spelled xs]

end

/-- Whether one of the nodes is a constant and the other a variable with its name. -/
def isConfusable (constants : Constants) : Node → Node → Bool
  | literal value, identifier name _ => constants name == some value
  | identifier name _, literal value => constants name == some value
  | _, _ => false

/-- Whether the node is a literal or a variable. -/
def isAtom : Node → Bool
  | literal _ => true
  | identifier _ _ => true
  | _ => false

theorem ne_inline_identifier {x : Node} {name : String} {index : Nat} (h : x.isAtom = false) :
    x.inline constants ≠ (identifier name index).inline constants := by
  intro same
  rcases inline_identifier constants name index with shown | ⟨value, -, shown⟩ <;>
    rw [shown] at same <;> cases x <;> simp [inline] at same <;> cases h

/-- No node of the one tree is confusable with one of the other. -/
def Distinct (constants : Constants) (xs ys : List Node) : Prop :=
  ∀ x ∈ xs, ∀ y ∈ ys, isConfusable constants x y = false

instance (constants : Constants) (xs ys : List Node) : Decidable (Distinct constants xs ys) :=
  inferInstanceAs (Decidable (∀ x ∈ xs, ∀ y ∈ ys, isConfusable constants x y = false))

namespace Distinct

variable {x y : Node} {xs xs' ys ys' : List Node}

theorem tail (h : Distinct constants (x :: xs) (y :: ys)) : Distinct constants xs ys :=
  fun u hu v hv => h u (List.mem_cons_of_mem x hu) v (List.mem_cons_of_mem y hv)

theorem left (h : Distinct constants (xs ++ xs') (ys ++ ys')) : Distinct constants xs ys :=
  fun u hu v hv => h u (List.mem_append_left xs' hu) v (List.mem_append_left ys' hv)

theorem right (h : Distinct constants (xs ++ xs') (ys ++ ys')) : Distinct constants xs' ys' :=
  fun u hu v hv => h u (List.mem_append_right xs hu) v (List.mem_append_right ys hv)

end Distinct

mutual

/-- Trees that become the same were the same up to indices, if no constant of the one is confusable
with a variable of the other. -/
theorem inline_none_congr (spelled : constants.Spelled) {x y : Node}
    (same : x.inline constants = y.inline constants)
    (apart : Distinct constants x.subnodes y.subnodes) : x.inline .none = y.inline .none := by
  cases x with
  | text raw =>
    cases y with
    | text raw' => exact same
    | identifier name index => exact absurd same (ne_inline_identifier rfl)
    | _ => simp [inline] at same
  | literal value =>
    cases y with
    | literal value' => exact same
    | identifier name index =>
      rcases inline_identifier constants name index with shown | ⟨value', found, shown⟩
      · cases same.trans shown
      · cases same.trans shown
        have other := apart _ (List.mem_cons_self ..) _ (List.mem_cons_self ..)
        simp [isConfusable, found] at other
    | _ => simp [inline] at same
  | identifier name index =>
    cases y with
    | literal value =>
      rcases inline_identifier constants name index with shown | ⟨value', found, shown⟩
      · cases shown.symm.trans same
      · cases shown.symm.trans same
        have other := apart _ (List.mem_cons_self ..) _ (List.mem_cons_self ..)
        simp [isConfusable, found] at other
    | identifier name' index' =>
      -- Either both are constants or neither is, and their text is their name in any case.
      have texts := congrArg chars same
      rw [chars_inline spelled, chars_inline spelled, chars_identifier, chars_identifier,
        String.toList_inj] at texts
      rw [texts]
      rfl
    | _ => exact absurd same.symm (ne_inline_identifier rfl)
  | eval deferred child =>
    cases y with
    | eval deferred' child' =>
      simp only [inline, eval.injEq] at same
      obtain ⟨rfl, child⟩ := same
      have child := inline_none_congr spelled child apart.tail
      simp only [inline, child]
    | identifier name index => exact absurd same (ne_inline_identifier rfl)
    | _ => simp [inline] at same
  | property base name assignable =>
    cases y with
    | property base' name' assignable' =>
      simp only [inline, property.injEq] at same
      obtain ⟨base, rfl, -⟩ := same
      have base := inline_none_congr spelled base apart.tail
      simp only [inline, base]
    | identifier name index => exact absurd same (ne_inline_identifier rfl)
    | _ => simp [inline] at same
  | item base key assignable =>
    cases y with
    | item base' key' assignable' =>
      simp only [inline, item.injEq] at same
      obtain ⟨base, key, -⟩ := same
      have base := inline_none_congr spelled base apart.tail.left
      have key := inline_none_congr spelled key apart.tail.right
      simp only [inline, base, key]
    | identifier name index => exact absurd same (ne_inline_identifier rfl)
    | _ => simp [inline] at same
  | bracket inner =>
    cases y with
    | bracket inner' =>
      simp only [inline, bracket.injEq] at same
      have inner := inline_none_congr spelled same apart.tail
      simp only [inline, inner]
    | identifier name index => exact absurd same (ne_inline_identifier rfl)
    | _ => simp [inline] at same
  | unary op operand =>
    cases y with
    | unary op' operand' =>
      simp only [inline, unary.injEq] at same
      obtain ⟨rfl, operand⟩ := same
      have operand := inline_none_congr spelled operand apart.tail
      simp only [inline, operand]
    | identifier name index => exact absurd same (ne_inline_identifier rfl)
    | _ => simp [inline] at same
  | binary op left right =>
    cases y with
    | binary op' left' right' =>
      simp only [inline, binary.injEq] at same
      obtain ⟨rfl, left, right⟩ := same
      have left := inline_none_congr spelled left apart.tail.left
      have right := inline_none_congr spelled right apart.tail.right
      simp only [inline, left, right]
    | identifier name index => exact absurd same (ne_inline_identifier rfl)
    | _ => simp [inline] at same
  | ternary condition yes no =>
    cases y with
    | ternary condition' yes' no' =>
      simp only [inline, ternary.injEq] at same
      obtain ⟨condition, yes, no⟩ := same
      have condition := inline_none_congr spelled condition apart.tail.left
      have yes := inline_none_congr spelled yes apart.tail.right.left
      have no := inline_none_congr spelled no apart.tail.right.right
      simp only [inline, condition, yes, no]
    | identifier name index => exact absurd same (ne_inline_identifier rfl)
    | _ => simp [inline] at same
  | call qualifier name index arguments =>
    cases y with
    | call qualifier' name' index' arguments' =>
      simp only [inline, call.injEq] at same
      obtain ⟨rfl, rfl, -, arguments⟩ := same
      have arguments := inlineAll_none_congr spelled arguments apart.tail
      simp only [inline, arguments]
    | identifier name index => exact absurd same (ne_inline_identifier rfl)
    | _ => simp [inline] at same
  | method target arguments =>
    cases y with
    | method target' arguments' =>
      simp only [inline, method.injEq] at same
      obtain ⟨target, arguments⟩ := same
      have target := inline_none_congr spelled target apart.tail.left
      have arguments := inlineAll_none_congr spelled arguments apart.tail.right
      simp only [inline, target, arguments]
    | identifier name index => exact absurd same (ne_inline_identifier rfl)
    | _ => simp [inline] at same
  | composite parts =>
    cases y with
    | composite parts' =>
      simp only [inline, composite.injEq] at same
      have parts := inlineAll_none_congr spelled same apart.tail
      simp only [inline, parts]
    | identifier name index => exact absurd same (ne_inline_identifier rfl)
    | _ => simp [inline] at same

theorem inlineAll_none_congr (spelled : constants.Spelled) {xs ys : List Node}
    (same : inlineAll constants xs = inlineAll constants ys)
    (apart : Distinct constants (subnodesAll xs) (subnodesAll ys)) :
    inlineAll .none xs = inlineAll .none ys := by
  cases xs with
  | nil =>
    cases ys with
    | nil => rfl
    | cons y ys => cases same
  | cons x xs =>
    cases ys with
    | nil => cases same
    | cons y ys =>
      obtain ⟨first, rest⟩ := List.cons.inj same
      have first := inline_none_congr spelled first apart.left
      have rest := inlineAll_none_congr spelled rest apart.right
      simp only [inlineAll, first, rest]

end

end Node

end ElTemplate
