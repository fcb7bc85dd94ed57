import ElTemplate.Parser.State
import ElTemplate.Proofs.Grammar.Basic

/-!
# The indices of names

The names of a tree are registered in the order in which they are read: the names in the parts of a
node before those of later parts, and a call after its arguments. Registering gives the tree its
indices, and the inventories they point into.
-/

namespace ElTemplate

/-- The names registered so far. -/
structure Names where
  identifiers : Inventory String
  functions : Inventory CallSite

namespace Names

/-- No names. -/
def empty : Names :=
  ⟨.empty, .empty⟩

end Names

namespace Node

mutual

/-- The tree with its indices, and the names registered after it. -/
def register (features : FeatureSet) (names : Names) : Node → Node × Names
  | text raw => (text raw, names)
  | eval deferred child =>
    let (child, names) := child.register features names
    (eval deferred child, names)
  | literal value => (literal value, names)
  | identifier name _ =>
    let (index, identifiers) := names.identifiers.register name
    (identifier name index, { names with identifiers })
  | property base name assignable =>
    let (base, names) := base.register features names
    (property base name assignable, names)
  | item base key assignable =>
    let (base, names) := base.register features names
    let (key, names) := key.register features names
    (item base key assignable, names)
  | bracket inner =>
    let (inner, names) := inner.register features names
    (bracket inner, names)
  | unary op operand =>
    let (operand, names) := operand.register features names
    (unary op operand, names)
  | binary op left right =>
    let (left, names) := left.register features names
    let (right, names) := right.register features names
    (binary op left right, names)
  | ternary condition yes no =>
    let (condition, names) := condition.register features names
    let (yes, names) := yes.register features names
    let (no, names) := no.register features names
    (ternary condition yes no, names)
  | call qualifier name _ arguments =>
    let (arguments, names) := registerAll features names arguments
    let (index, functions) :=
      names.functions.register ⟨qualifier, name, arguments.length, features.varargs⟩
    (call qualifier name index arguments, { names with functions })
  | method target arguments =>
    let (target, names) := target.register features names
    let (arguments, names) := registerAll features names arguments
    (method target arguments, names)
  | composite parts =>
    let (parts, names) := registerAll features names parts
    (composite parts, names)

/-- The trees with their indices, registered one after the other. -/
def registerAll (features : FeatureSet) (names : Names) : List Node → List Node × Names
  | [] => ([], names)
  | node :: rest =>
    let (node, names) := node.register features names
    let (rest, names) := registerAll features names rest
    (node :: rest, names)

end

variable {features : FeatureSet}

@[simp] theorem length_registerAll (names : Names) (xs : List Node) :
    (registerAll features names xs).1.length = xs.length := by
  induction xs generalizing names with
  | nil => rfl
  | cons x xs ih => simp only [registerAll, List.length_cons, ih]

@[simp] theorem isLiteral_register (names : Names) (x : Node) :
    (x.register features names).1.isLiteral = x.isLiteral := by
  cases x <;> rfl

mutual

/-- The tree without its indices. -/
def erase : Node → Node
  | text raw => text raw
  | eval deferred child => eval deferred child.erase
  | literal value => literal value
  | identifier name _ => identifier name 0
  | property base name assignable => property base.erase name assignable
  | item base key assignable => item base.erase key.erase assignable
  | bracket inner => bracket inner.erase
  | unary op operand => unary op operand.erase
  | binary op left right => binary op left.erase right.erase
  | ternary condition yes no => ternary condition.erase yes.erase no.erase
  | call qualifier name _ arguments => call qualifier name 0 (eraseAll arguments)
  | method target arguments => method target.erase (eraseAll arguments)
  | composite parts => composite (eraseAll parts)

/-- The trees without their indices. -/
def eraseAll : List Node → List Node
  | [] => []
  | node :: rest => node.erase :: eraseAll rest

end

mutual

/-- Registering changes the indices only. -/
theorem erase_register (names : Names) (x : Node) :
    (x.register features names).1.erase = x.erase := by
  cases x with
  | text raw => rfl
  | eval deferred child => simp only [register, erase, erase_register _ child]
  | literal value => rfl
  | identifier name index => rfl
  | property base name assignable => simp only [register, erase, erase_register _ base]
  | item base key assignable =>
    simp only [register, erase, erase_register _ base, erase_register _ key]
  | bracket inner => simp only [register, erase, erase_register _ inner]
  | unary op operand => simp only [register, erase, erase_register _ operand]
  | binary op left right =>
    simp only [register, erase, erase_register _ left, erase_register _ right]
  | ternary condition yes no =>
    simp only [register, erase, erase_register _ condition, erase_register _ yes,
      erase_register _ no]
  | call qualifier name index arguments =>
    simp only [register, erase, eraseAll_registerAll _ arguments]
  | method target arguments =>
    simp only [register, erase, erase_register _ target, eraseAll_registerAll _ arguments]
  | composite parts => simp only [register, erase, eraseAll_registerAll _ parts]

theorem eraseAll_registerAll (names : Names) (xs : List Node) :
    eraseAll (registerAll features names xs).1 = eraseAll xs := by
  cases xs with
  | nil => rfl
  | cons x xs => simp only [registerAll, eraseAll, erase_register _ x, eraseAll_registerAll _ xs]

end

end Node

namespace Grammar

variable {features : FeatureSet} {phrase : Phrase} {deferred : Bool} {ts rest : List Token}
  {nodes parts : List Node} {root part : Node}

/-- Derivations know no indices. -/
theorem Derives.eraseAll_eq (h : Derives features phrase ts nodes rest) :
    Node.eraseAll nodes = nodes := by
  induction h with
  | noArguments => rfl
  | noFurther => rfl
  | literal => rfl
  | identifier => rfl
  | condition _ ih | operand _ ih | lift _ ih | value _ ih | primary _ ih => exact ih
  | arguments _ _ _ _ first second | further _ _ _ first second =>
    simp_all only [Node.eraseAll, List.cons.injEq, and_true]
  | _ => simp_all only [Node.erase, Node.eraseAll, List.cons.injEq, and_true]

theorem Block.erase_eq (h : Block features deferred ts part rest) : part.erase = part := by
  cases h with
  | mk _ expression _ =>
    have child := expression.eraseAll_eq
    rw [Node.eraseAll, Node.eraseAll, List.cons.injEq] at child
    rw [Node.erase, child.1]

theorem Parts.eraseAll_eq (h : Parts features deferred ts parts) :
    Node.eraseAll parts = parts := by
  induction h with
  | nil => rfl
  | block first _ ih => rw [Node.eraseAll, first.erase_eq, ih]
  | blockText first _ _ ih =>
    rw [Node.eraseAll, Node.eraseAll, Node.erase, first.erase_eq, ih]

theorem Sentence.erase_eq (h : Sentence features ts root deferred) : root.erase = root := by
  cases h with
  | empty => rfl
  | text _ => rfl
  | block block => exact block.erase_eq
  | parts derived _ => rw [Node.erase, derived.eraseAll_eq]
  | textParts _ derived _ =>
    rw [Node.erase, Node.eraseAll, Node.erase, derived.eraseAll_eq]

end Grammar

/-- The template with this root, which has no indices yet. -/
def Template.ofRoot (features : FeatureSet) (root : Node) (deferred : Bool) : Template :=
  let (root, names) := root.register features .empty
  ⟨root, deferred, names.identifiers.toList, names.functions.toList⟩

end ElTemplate
