import ElTemplate.Node.Spelling
import ElTemplate.Proofs.Node.Tree
import ElTemplate.Proofs.Token.Literal
import ElTemplate.Proofs.Token.Respell

/-!
# Canonical text as characters

The canonical text of a node is put together from the texts of its parts, and knows no indices. A
few nodes have a text that is read as something else; the others are legible.
-/

namespace ElTemplate.Node

/-- The characters of the canonical text. -/
def chars (x : Node) : List Char :=
  (x.spelling (Bindings.empty : Bindings Empty)).toList

/-- The characters of arguments, a comma and a space between two. -/
def charsArguments (xs : List Node) : List Char :=
  (spellArguments (Bindings.empty : Bindings Empty) xs).toList

/-- The characters of further arguments, a comma and a space before each. -/
def charsFurther (xs : List Node) : List Char :=
  (spellFurther (Bindings.empty : Bindings Empty) xs).toList

/-- The characters of the parts of a template. -/
def charsParts (xs : List Node) : List Char :=
  (spellParts (Bindings.empty : Bindings Empty) xs).toList

section Equations

variable {x y z : Node} {xs : List Node} {name : String}

attribute [local simp] chars charsArguments charsFurther charsParts spelling spellArguments
  spellFurther spellParts callName

theorem canonical_toList : x.canonical.toList = x.chars := rfl

theorem chars_text : (text name).chars = name.toList := by
  simp

theorem chars_eval (deferred : Bool) : (eval deferred x).chars =
    (if deferred then '#' else '$') :: '{' :: (x.chars ++ ['}']) := by
  cases deferred <;> simp

theorem chars_literal (value : Literal) : (literal value).chars = value.spelling.toList := by
  simp

theorem chars_identifier (index : Nat) : (identifier name index).chars = name.toList := by
  simp

theorem chars_property (assignable : Bool) :
    (property x name assignable).chars = x.chars ++ '.' :: name.toList := by
  simp

theorem chars_item (assignable : Bool) :
    (item x y assignable).chars = x.chars ++ '[' :: (y.chars ++ [']']) := by
  simp

theorem chars_bracket : (bracket x).chars = '(' :: (x.chars ++ [')']) := by
  simp

theorem chars_unary (op : UnaryOp) :
    (unary op x).chars = op.spelling.toList ++ ' ' :: x.chars := by
  simp

theorem chars_binary (op : BinaryOp) :
    (binary op x y).chars = x.chars ++ ' ' :: (op.spelling.toList ++ ' ' :: y.chars) := by
  simp

theorem chars_ternary : (ternary x y z).chars =
    x.chars ++ ' ' :: '?' :: ' ' :: (y.chars ++ ' ' :: ':' :: ' ' :: z.chars) := by
  simp

theorem chars_call (index : Nat) : (call none name index xs).chars =
    name.toList ++ '(' :: (charsArguments xs ++ [')']) := by
  simp

theorem chars_qualifiedCall (qualifier : String) (index : Nat) :
    (call (some qualifier) name index xs).chars =
      qualifier.toList ++ ':' :: (name.toList ++ '(' :: (charsArguments xs ++ [')'])) := by
  simp

theorem chars_method : (method x xs).chars = x.chars ++ '(' :: (charsArguments xs ++ [')']) := by
  simp

theorem chars_composite : (composite xs).chars = charsParts xs := by
  simp

theorem charsArguments_cons : charsArguments (x :: xs) = x.chars ++ charsFurther xs := by
  simp

theorem charsFurther_cons :
    charsFurther (x :: xs) = ',' :: ' ' :: (x.chars ++ charsFurther xs) := by
  simp

theorem charsParts_cons : charsParts (x :: xs) = x.chars ++ charsParts xs := by
  simp

end Equations

mutual

theorem chars_erase (x : Node) : x.erase.chars = x.chars := by
  cases x with
  | text raw => rfl
  | eval deferred child => simp only [erase, chars_eval, chars_erase child]
  | literal value => rfl
  | identifier name index => simp only [erase, chars_identifier]
  | property base name assignable => simp only [erase, chars_property, chars_erase base]
  | item base key assignable => simp only [erase, chars_item, chars_erase base, chars_erase key]
  | bracket inner => simp only [erase, chars_bracket, chars_erase inner]
  | unary op operand => simp only [erase, chars_unary, chars_erase operand]
  | binary op left right => simp only [erase, chars_binary, chars_erase left, chars_erase right]
  | ternary condition yes no =>
    simp only [erase, chars_ternary, chars_erase condition, chars_erase yes, chars_erase no]
  | call qualifier name index arguments =>
    cases qualifier with
    | none => simp only [erase, chars_call, charsArguments_eraseAll arguments]
    | some qualifier => simp only [erase, chars_qualifiedCall, charsArguments_eraseAll arguments]
  | method target arguments =>
    simp only [erase, chars_method, chars_erase target, charsArguments_eraseAll arguments]
  | composite parts => simp only [erase, chars_composite, charsParts_eraseAll parts]

theorem charsArguments_eraseAll (xs : List Node) :
    charsArguments (eraseAll xs) = charsArguments xs := by
  cases xs with
  | nil => rfl
  | cons x xs =>
    simp only [eraseAll, charsArguments_cons, chars_erase x, charsFurther_eraseAll xs]

theorem charsFurther_eraseAll (xs : List Node) :
    charsFurther (eraseAll xs) = charsFurther xs := by
  cases xs with
  | nil => rfl
  | cons x xs =>
    simp only [eraseAll, charsFurther_cons, chars_erase x, charsFurther_eraseAll xs]

theorem charsParts_eraseAll (xs : List Node) : charsParts (eraseAll xs) = charsParts xs := by
  cases xs with
  | nil => rfl
  | cons x xs => simp only [eraseAll, charsParts_cons, chars_erase x, charsParts_eraseAll xs]

end

/-- The canonical text knows no indices. -/
theorem canonical_register {features : FeatureSet} (names : Names) (x : Node) :
    (x.register features names).1.canonical = x.canonical := by
  rw [← String.toList_inj, canonical_toList, canonical_toList, ← chars_erase, erase_register,
    chars_erase]

/-- Whether the text of the node itself is read as something else: the spelling of an infinite
number is an identifier, and the point of a property behind digits makes them a float if the name
goes on like an exponent. -/
def isMisread : Node → Bool
  | literal value => value.isInfinite
  | property (literal value) name _ => value.isWhole && Lexeme.isExponent name.toList
  | _ => false

/-- No node of the tree is misread. -/
def Legible (x : Node) : Prop :=
  ∀ y ∈ x.subnodes, y.isMisread = false

/-- No node of the trees is misread. -/
def LegibleAll (xs : List Node) : Prop :=
  ∀ y ∈ subnodesAll xs, y.isMisread = false

section Legible

variable {x y z : Node} {xs : List Node} {name raw : String}

attribute [local simp] Legible LegibleAll subnodes subnodesAll isMisread or_imp forall_and

theorem legible_text : (text raw).Legible ↔ True := by
  simp

theorem legible_eval (deferred : Bool) : (eval deferred x).Legible ↔ x.Legible := by
  simp

theorem legible_literal (value : Literal) :
    (literal value).Legible ↔ value.isInfinite = false := by
  simp

theorem legible_identifier (index : Nat) : (identifier name index).Legible ↔ True := by
  simp

theorem legible_property (assignable : Bool) : (property x name assignable).Legible ↔
    (property x name assignable).isMisread = false ∧ x.Legible := by
  simp

theorem legible_item (assignable : Bool) :
    (item x y assignable).Legible ↔ x.Legible ∧ y.Legible := by
  simp

theorem legible_bracket : (bracket x).Legible ↔ x.Legible := by
  simp

theorem legible_unary (op : UnaryOp) : (unary op x).Legible ↔ x.Legible := by
  simp

theorem legible_binary (op : BinaryOp) : (binary op x y).Legible ↔ x.Legible ∧ y.Legible := by
  simp

theorem legible_ternary : (ternary x y z).Legible ↔ x.Legible ∧ y.Legible ∧ z.Legible := by
  simp

theorem legible_call (qualifier : Option String) (index : Nat) :
    (call qualifier name index xs).Legible ↔ LegibleAll xs := by
  simp

theorem legible_method : (method x xs).Legible ↔ x.Legible ∧ LegibleAll xs := by
  simp

theorem legible_composite : (composite xs).Legible ↔ LegibleAll xs := by
  simp

theorem legibleAll_nil : LegibleAll [] ↔ True := by
  simp

theorem legibleAll_cons : LegibleAll (x :: xs) ↔ x.Legible ∧ LegibleAll xs := by
  simp

end Legible

theorem isMisread_erase (x : Node) : x.erase.isMisread = x.isMisread := by
  cases x with
  | property base name assignable => cases base <;> rfl
  | _ => rfl

theorem legible_erase (x : Node) : x.erase.Legible ↔ x.Legible := by
  simp only [Legible, subnodes_erase, List.forall_mem_map, isMisread_erase]

/-- Whether a tree is legible does not depend on its indices. -/
theorem legible_register {features : FeatureSet} (names : Names) (x : Node) :
    (x.register features names).1.Legible ↔ x.Legible := by
  rw [← legible_erase, erase_register, legible_erase]

end ElTemplate.Node
