import ElTemplate.Proofs.Node.Tree
import ElTemplate.Proofs.Template.Inventory

/-!
# The names of a tree

Registering a tree registers its identifiers from left to right, and its calls each after its
arguments. The indices that the tree gets are the places of its names in the inventories, even in
those at the end of the template, since no entry ever moves. So a template is made of its tree, the
distinct names in the tree, and their places.
-/

namespace ElTemplate

/-- What a call asks for. It is a call site but for what the features allow there. -/
structure Callee where
  qualifier : Option String
  name : String
  arity : Nat
deriving DecidableEq, Repr

namespace Callee

def site (features : FeatureSet) (callee : Callee) : CallSite :=
  ⟨callee.qualifier, callee.name, callee.arity, features.varargs⟩

theorem site_injective (features : FeatureSet) : Function.Injective (site features) := by
  rintro ⟨qualifier, name, arity⟩ ⟨qualifier', name', arity'⟩ same
  cases same
  rfl

end Callee

namespace Names

variable {features : FeatureSet} {names names' names'' : Names}

/-- The names after some identifiers and calls have been registered. -/
def registerAll (features : FeatureSet) (names : Names) (identifiers : List String)
    (callees : List Callee) : Names :=
  ⟨names.identifiers.registerAll identifiers,
    names.functions.registerAll (callees.map (Callee.site features))⟩

theorem registerAll_registerAll (identifiers identifiers' : List String)
    (callees callees' : List Callee) :
    (names.registerAll features identifiers callees).registerAll features identifiers' callees' =
      names.registerAll features (identifiers ++ identifiers') (callees ++ callees') := by
  simp only [registerAll, List.map_append, Inventory.registerAll_append]

/-- Nothing that was registered has moved since. -/
structure Before (names names' : Names) : Prop where
  identifiers : names.identifiers.toList <+: names'.identifiers.toList
  functions : names.functions.toList <+: names'.functions.toList

theorem Before.refl (names : Names) : names.Before names :=
  ⟨List.prefix_rfl, List.prefix_rfl⟩

theorem Before.trans (first : names.Before names') (last : names'.Before names'') :
    names.Before names'' :=
  ⟨first.identifiers.trans last.identifiers, first.functions.trans last.functions⟩

theorem before_registerAll (identifiers : List String) (callees : List Callee) :
    names.Before (names.registerAll features identifiers callees) :=
  ⟨Inventory.prefix_registerAll _, Inventory.prefix_registerAll _⟩

end Names

/-- Where names stand in inventories. -/
structure Places where
  identifier : String → Nat
  callee : Callee → Nat

/-- The places in these inventories. -/
def Places.of (features : FeatureSet) (identifiers : List String) (functions : List CallSite) :
    Places :=
  ⟨identifiers.idxOf, fun callee => functions.idxOf (callee.site features)⟩

/-- The places of the names that are registered. -/
def Names.places (features : FeatureSet) (names : Names) : Places :=
  .of features names.identifiers.toList names.functions.toList

namespace Node

/-- The name of an identifier. -/
def identifier? : Node → Option String
  | identifier name _ => some name
  | _ => none

/-- The identifiers of the tree from left to right. -/
def identifiers (x : Node) : List String :=
  x.subnodes.filterMap identifier?

/-- The identifiers of several trees. -/
def identifiersAll (xs : List Node) : List String :=
  (subnodesAll xs).filterMap identifier?

mutual

/-- What is called in the tree, the arguments of a call before the call. -/
def callees : Node → List Callee
  | text _ => []
  | eval _ child => child.callees
  | literal _ => []
  | identifier _ _ => []
  | property base _ _ => base.callees
  | item base key _ => base.callees ++ key.callees
  | bracket inner => inner.callees
  | unary _ operand => operand.callees
  | binary _ left right => left.callees ++ right.callees
  | ternary condition yes no => condition.callees ++ (yes.callees ++ no.callees)
  | call qualifier name _ arguments =>
    calleesAll arguments ++ [⟨qualifier, name, arguments.length⟩]
  | method target arguments => target.callees ++ calleesAll arguments
  | composite parts => calleesAll parts

/-- What is called in several trees. -/
def calleesAll : List Node → List Callee
  | [] => []
  | node :: rest => node.callees ++ calleesAll rest

end

mutual

/-- The tree with the places of its names as indices. -/
def reindex (places : Places) : Node → Node
  | text raw => text raw
  | eval deferred child => eval deferred (child.reindex places)
  | literal value => literal value
  | identifier name _ => identifier name (places.identifier name)
  | property base name assignable => property (base.reindex places) name assignable
  | item base key assignable => item (base.reindex places) (key.reindex places) assignable
  | bracket inner => bracket (inner.reindex places)
  | unary op operand => unary op (operand.reindex places)
  | binary op left right => binary op (left.reindex places) (right.reindex places)
  | ternary condition yes no =>
    ternary (condition.reindex places) (yes.reindex places) (no.reindex places)
  | call qualifier name _ arguments =>
    call qualifier name (places.callee ⟨qualifier, name, arguments.length⟩)
      (reindexAll places arguments)
  | method target arguments => method (target.reindex places) (reindexAll places arguments)
  | composite parts => composite (reindexAll places parts)

/-- The trees with the places of their names as indices. -/
def reindexAll (places : Places) : List Node → List Node
  | [] => []
  | node :: rest => node.reindex places :: reindexAll places rest

end

section Registering

variable {features : FeatureSet}

attribute [local simp] identifiers identifiersAll identifier? subnodes subnodesAll callees
  calleesAll List.filterMap_cons

mutual

/-- Registering a tree is registering its identifiers and what it calls. -/
theorem register_snd (names : Names) (x : Node) :
    (x.register features names).2 = names.registerAll features x.identifiers x.callees := by
  cases x with
  | text raw => rfl
  | eval deferred child => exact register_snd names child
  | literal value => rfl
  | identifier name index => rfl
  | property base name assignable => exact register_snd names base
  | item base key assignable =>
    simp only [register, register_snd _ base, register_snd _ key, Names.registerAll_registerAll]
    simp
  | bracket inner => exact register_snd names inner
  | unary op operand => exact register_snd names operand
  | binary op left right =>
    simp only [register, register_snd _ left, register_snd _ right, Names.registerAll_registerAll]
    simp
  | ternary condition yes no =>
    simp only [register, register_snd _ condition, register_snd _ yes, register_snd _ no,
      Names.registerAll_registerAll]
    simp
  | call qualifier name index arguments =>
    simp only [register, registerAll_snd _ arguments, length_registerAll]
    simp [Names.registerAll, Inventory.registerAll_append, Inventory.registerAll_singleton,
      Callee.site]
  | method target arguments =>
    simp only [register, register_snd _ target, registerAll_snd _ arguments,
      Names.registerAll_registerAll]
    simp
  | composite parts => exact registerAll_snd names parts

theorem registerAll_snd (names : Names) (xs : List Node) :
    (registerAll features names xs).2 =
      names.registerAll features (identifiersAll xs) (calleesAll xs) := by
  cases xs with
  | nil => rfl
  | cons x xs =>
    simp only [registerAll, register_snd _ x, registerAll_snd _ xs, Names.registerAll_registerAll]
    simp

end

theorem before_register (names : Names) (x : Node) :
    names.Before (x.register features names).2 := by
  rw [register_snd]
  exact Names.before_registerAll _ _

theorem before_registerAll (names : Names) (xs : List Node) :
    names.Before (registerAll features names xs).2 := by
  rw [registerAll_snd]
  exact Names.before_registerAll _ _

mutual

/-- The indices of a tree are the places of its names in the inventories, then and later. -/
theorem register_fst {names final : Names} (x : Node)
    (before : (x.register features names).2.Before final) :
    (x.register features names).1 = x.reindex (final.places features) := by
  cases x with
  | text raw => rfl
  | eval deferred child => simp only [register, reindex, register_fst child before]
  | literal value => rfl
  | identifier name index =>
    simp only [register, reindex, Inventory.register_fst_of_prefix before.identifiers]
    rfl
  | property base name assignable => simp only [register, reindex, register_fst base before]
  | item base key assignable =>
    have first := (before_register _ key).trans before
    simp only [register, reindex, register_fst base first, register_fst key before]
  | bracket inner => simp only [register, reindex, register_fst inner before]
  | unary op operand => simp only [register, reindex, register_fst operand before]
  | binary op left right =>
    have first := (before_register _ right).trans before
    simp only [register, reindex, register_fst left first, register_fst right before]
  | ternary condition yes no =>
    have second := (before_register _ no).trans before
    have first := (before_register _ yes).trans second
    simp only [register, reindex, register_fst condition first, register_fst yes second,
      register_fst no before]
  | call qualifier name index arguments =>
    have first : (registerAll features names arguments).2.Before final :=
      ⟨before.identifiers, (Inventory.prefix_register _).trans before.functions⟩
    have place := Inventory.register_fst_of_prefix before.functions
    simp only [register, length_registerAll] at place ⊢
    rw [place, registerAll_fst arguments first]
    rfl
  | method target arguments =>
    have first := (before_registerAll _ arguments).trans before
    simp only [register, reindex, register_fst target first, registerAll_fst arguments before]
  | composite parts => simp only [register, reindex, registerAll_fst parts before]

theorem registerAll_fst {names final : Names} (xs : List Node)
    (before : (registerAll features names xs).2.Before final) :
    (registerAll features names xs).1 = reindexAll (final.places features) xs := by
  cases xs with
  | nil => rfl
  | cons x xs =>
    have first := (before_registerAll _ xs).trans before
    simp only [registerAll, reindexAll, register_fst x first, registerAll_fst xs before]

end

end Registering

/-- What the node itself calls. -/
def callee? : Node → Option Callee
  | call qualifier name _ arguments => some ⟨qualifier, name, arguments.length⟩
  | _ => none

theorem mem_identifiers {x : Node} {name : String} :
    name ∈ x.identifiers ↔ ∃ y ∈ x.subnodes, y.identifier? = some name :=
  List.mem_filterMap

section Callees

attribute [local simp] subnodes subnodesAll callees calleesAll callee? or_and_right exists_or

mutual

theorem mem_callees {c : Callee} (x : Node) :
    c ∈ x.callees ↔ ∃ y ∈ x.subnodes, y.callee? = some c := by
  cases x with
  | text raw => simp
  | eval deferred child => simpa using mem_callees child
  | literal value => simp
  | identifier name index => simp
  | property base name assignable => simpa using mem_callees base
  | item base key assignable => simp [mem_callees base, mem_callees key]
  | bracket inner => simpa using mem_callees inner
  | unary op operand => simpa using mem_callees operand
  | binary op left right => simp [mem_callees left, mem_callees right]
  | ternary condition yes no => simp [mem_callees condition, mem_callees yes, mem_callees no]
  | call qualifier name index arguments =>
    simp [mem_calleesAll arguments, or_comm, eq_comm]
  | method target arguments => simp [mem_callees target, mem_calleesAll arguments]
  | composite parts => simpa using mem_calleesAll parts

theorem mem_calleesAll {c : Callee} (xs : List Node) :
    c ∈ calleesAll xs ↔ ∃ y ∈ subnodesAll xs, y.callee? = some c := by
  cases xs with
  | nil => simp
  | cons x xs => simp [mem_callees x, mem_calleesAll xs]

end

end Callees

section Reindexing

variable (places : Places)

@[simp] theorem length_reindexAll (xs : List Node) :
    (reindexAll places xs).length = xs.length := by
  induction xs with
  | nil => rfl
  | cons x xs ih => rw [reindexAll, List.length_cons, List.length_cons, ih]

mutual

theorem subnodes_reindex (x : Node) :
    (x.reindex places).subnodes = x.subnodes.map (reindex places) := by
  cases x with
  | text raw => rfl
  | eval deferred child => simp only [reindex, subnodes, List.map_cons, subnodes_reindex child]
  | literal value => rfl
  | identifier name index => rfl
  | property base name assignable =>
    simp only [reindex, subnodes, List.map_cons, subnodes_reindex base]
  | item base key assignable =>
    simp only [reindex, subnodes, List.map_cons, List.map_append, subnodes_reindex base,
      subnodes_reindex key]
  | bracket inner => simp only [reindex, subnodes, List.map_cons, subnodes_reindex inner]
  | unary op operand => simp only [reindex, subnodes, List.map_cons, subnodes_reindex operand]
  | binary op left right =>
    simp only [reindex, subnodes, List.map_cons, List.map_append, subnodes_reindex left,
      subnodes_reindex right]
  | ternary condition yes no =>
    simp only [reindex, subnodes, List.map_cons, List.map_append, subnodes_reindex condition,
      subnodes_reindex yes, subnodes_reindex no]
  | call qualifier name index arguments =>
    simp only [reindex, subnodes, List.map_cons, subnodesAll_reindexAll arguments]
  | method target arguments =>
    simp only [reindex, subnodes, List.map_cons, List.map_append, subnodes_reindex target,
      subnodesAll_reindexAll arguments]
  | composite parts => simp only [reindex, subnodes, List.map_cons, subnodesAll_reindexAll parts]

theorem subnodesAll_reindexAll (xs : List Node) :
    subnodesAll (reindexAll places xs) = (subnodesAll xs).map (reindex places) := by
  cases xs with
  | nil => rfl
  | cons x xs =>
    simp only [reindexAll, subnodesAll, List.map_append, subnodes_reindex x,
      subnodesAll_reindexAll xs]

end

theorem reindex_eq_identifier {x : Node} {name : String} {index : Nat} :
    x.reindex places = identifier name index ↔
      x.identifier? = some name ∧ index = places.identifier name := by
  cases x <;> simp [reindex, identifier?]
  grind

/-- The identifiers of a tree keep their names. -/
theorem identifiers_reindex (x : Node) : (x.reindex places).identifiers = x.identifiers := by
  rw [identifiers, identifiers, subnodes_reindex, List.filterMap_map]
  exact List.filterMap_congr fun y _ => by cases y <;> rfl

/-- The identifiers of a tree with the places of its names. -/
theorem identifier_mem_reindex {x : Node} {name : String} {index : Nat} :
    identifier name index ∈ (x.reindex places).subnodes ↔
      name ∈ x.identifiers ∧ index = places.identifier name := by
  simp only [subnodes_reindex, List.mem_map, reindex_eq_identifier, mem_identifiers]
  grind

theorem eq_call_of_reindex {x : Node} {qualifier : Option String} {name : String} {index : Nat}
    {arguments : List Node} (h : x.reindex places = call qualifier name index arguments) :
    x.callee? = some ⟨qualifier, name, arguments.length⟩ ∧
      index = places.callee ⟨qualifier, name, arguments.length⟩ := by
  cases x with
  | call qualifier' name' index' arguments' =>
    cases h
    rw [callee?, length_reindexAll]
    exact ⟨rfl, rfl⟩
  | _ => cases h

theorem reindex_of_callee? {x : Node} {c : Callee} (h : x.callee? = some c) :
    ∃ arguments, arguments.length = c.arity ∧
      x.reindex places = call c.qualifier c.name (places.callee c) arguments := by
  cases x with
  | call qualifier name index arguments =>
    cases h
    exact ⟨reindexAll places arguments, length_reindexAll places arguments, rfl⟩
  | _ => cases h

/-- The calls of a tree with the places of its names. -/
theorem mem_callees_of_call {x : Node} {qualifier : Option String} {name : String} {index : Nat}
    {arguments : List Node}
    (h : call qualifier name index arguments ∈ (x.reindex places).subnodes) :
    ⟨qualifier, name, arguments.length⟩ ∈ x.callees ∧
      index = places.callee ⟨qualifier, name, arguments.length⟩ := by
  rw [subnodes_reindex, List.mem_map] at h
  obtain ⟨y, below, same⟩ := h
  have ⟨called, place⟩ := eq_call_of_reindex places same
  exact ⟨(mem_callees x).mpr ⟨y, below, called⟩, place⟩

/-- Whatever is called has a call in the tree with the places of its names. -/
theorem exists_call_of_mem_callees {x : Node} {c : Callee} (h : c ∈ x.callees) :
    ∃ arguments, arguments.length = c.arity ∧
      call c.qualifier c.name (places.callee c) arguments ∈ (x.reindex places).subnodes := by
  obtain ⟨y, below, called⟩ := (mem_callees x).mp h
  obtain ⟨arguments, arity, same⟩ := reindex_of_callee? places called
  refine ⟨arguments, arity, ?_⟩
  rw [subnodes_reindex, ← same]
  exact List.mem_map_of_mem below

end Reindexing

section Again

variable (places places' : Places)

mutual

/-- The indices that a tree had before do not matter. -/
theorem reindex_reindex (x : Node) : (x.reindex places).reindex places' = x.reindex places' := by
  cases x with
  | text raw => rfl
  | eval deferred child => simp only [reindex, reindex_reindex child]
  | literal value => rfl
  | identifier name index => rfl
  | property base name assignable => simp only [reindex, reindex_reindex base]
  | item base key assignable => simp only [reindex, reindex_reindex base, reindex_reindex key]
  | bracket inner => simp only [reindex, reindex_reindex inner]
  | unary op operand => simp only [reindex, reindex_reindex operand]
  | binary op left right => simp only [reindex, reindex_reindex left, reindex_reindex right]
  | ternary condition yes no =>
    simp only [reindex, reindex_reindex condition, reindex_reindex yes, reindex_reindex no]
  | call qualifier name index arguments =>
    simp only [reindex, reindexAll_reindexAll arguments, length_reindexAll]
  | method target arguments =>
    simp only [reindex, reindex_reindex target, reindexAll_reindexAll arguments]
  | composite parts => simp only [reindex, reindexAll_reindexAll parts]

theorem reindexAll_reindexAll (xs : List Node) :
    reindexAll places' (reindexAll places xs) = reindexAll places' xs := by
  cases xs with
  | nil => rfl
  | cons x xs => simp only [reindexAll, reindex_reindex x, reindexAll_reindexAll xs]

end

end Again

/-- The places of the names of a tree when nothing else is registered. -/
def places (x : Node) : Places :=
  ⟨x.identifiers.eraseDups.idxOf, x.callees.eraseDups.idxOf⟩

end Node

namespace Template

/-- The places in the inventories of a template. -/
def places (features : FeatureSet) (t : Template) : Places :=
  .of features t.identifiers t.functions

/-- A template has the distinct names of its root, and their places as indices. -/
theorem ofRoot_eq (features : FeatureSet) (root : Node) (deferred : Bool) :
    ofRoot features root deferred = ⟨root.reindex root.places, deferred,
      root.identifiers.eraseDups, root.callees.eraseDups.map (Callee.site features)⟩ := by
  have identifiers : (root.register features .empty).2.identifiers.toList =
      root.identifiers.eraseDups := by
    rw [Node.register_snd]
    exact Inventory.toList_empty_registerAll _
  have functions : (root.register features .empty).2.functions.toList =
      root.callees.eraseDups.map (Callee.site features) := by
    rw [Node.register_snd, ← Inventory.eraseDups_map (Callee.site_injective features)]
    exact Inventory.toList_empty_registerAll _
  have places : (root.register features .empty).2.places features = root.places := by
    simp only [Names.places, Places.of, Node.places, identifiers, functions,
      Inventory.idxOf_map (Callee.site_injective features)]
  show Template.mk (root.register features .empty).1 deferred _ _ = _
  rw [Node.register_fst root (.refl _), identifiers, functions, places]

end Template

end ElTemplate
