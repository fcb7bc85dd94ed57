import ElTemplate.Proofs.Node.Registration
import ElTemplate.Proofs.Template.RoundTrip

/-!
# Coherence of the inventories

The tree of a compiled template and its inventories say the same. An index in the tree points at
the name of its node, and no entry is there without a node.
-/

namespace ElTemplate.Template

open Grammar

/-- The inventories of a template have exactly the names of its tree, each once, at the indices that
the tree has for them. -/
structure Coherent (features : FeatureSet) (t : Template) : Prop where
  identifiers_nodup : t.identifiers.Nodup
  functions_nodup : t.functions.Nodup
  identifier {name : String} {index : Nat} : .identifier name index ∈ t.root.subnodes →
    t.identifiers[index]? = some name
  call {qualifier : Option String} {name : String} {index : Nat} {arguments : List Node} :
    .call qualifier name index arguments ∈ t.root.subnodes →
      t.functions[index]? = some ⟨qualifier, name, arguments.length, features.varargs⟩
  identifier_used {name : String} {index : Nat} : t.identifiers[index]? = some name →
    .identifier name index ∈ t.root.subnodes
  call_used {site : CallSite} {index : Nat} : t.functions[index]? = some site →
    ∃ arguments, arguments.length = site.arity ∧
      .call site.qualifier site.name index arguments ∈ t.root.subnodes

variable {features : FeatureSet} {source : String} {t : Template}

theorem ofRoot_coherent (features : FeatureSet) (root : Node) (deferred : Bool) :
    (ofRoot features root deferred).Coherent features := by
  have identifiers := Inventory.nodup_eraseDups root.identifiers
  have callees := Inventory.nodup_eraseDups root.callees
  have injective := Callee.site_injective features
  rw [ofRoot_eq]
  constructor
  case identifiers_nodup => exact identifiers
  case functions_nodup => exact callees.map injective
  case identifier =>
    intro name index below
    have ⟨used, place⟩ := (Node.identifier_mem_reindex _).mp below
    exact (Inventory.getElem?_eq_some_iff_idxOf identifiers).mpr ⟨List.mem_eraseDups.mpr used, place⟩
  case call =>
    intro qualifier name index arguments below
    have ⟨used, place⟩ := Node.mem_callees_of_call _ below
    have entry := (Inventory.getElem?_eq_some_iff_idxOf callees).mpr ⟨List.mem_eraseDups.mpr used, place⟩
    rw [List.getElem?_map, entry]
    rfl
  case identifier_used =>
    intro name index entry
    have ⟨used, place⟩ := (Inventory.getElem?_eq_some_iff_idxOf identifiers).mp entry
    exact (Node.identifier_mem_reindex _).mpr ⟨List.mem_eraseDups.mp used, place⟩
  case call_used =>
    intro site index entry
    rw [List.getElem?_map, Option.map_eq_some_iff] at entry
    obtain ⟨callee, entry, rfl⟩ := entry
    have ⟨used, place⟩ := (Inventory.getElem?_eq_some_iff_idxOf callees).mp entry
    rw [place]
    exact Node.exists_call_of_mem_callees _ (List.mem_eraseDups.mp used)

namespace Coherent

/-- Identifiers have the same index exactly if they have the same name. -/
theorem identifier_index_iff (h : t.Coherent features) {name name' : String} {index index' : Nat}
    (first : .identifier name index ∈ t.root.subnodes)
    (second : .identifier name' index' ∈ t.root.subnodes) : index = index' ↔ name = name' := by
  constructor
  · rintro rfl
    exact Option.some.inj ((h.identifier first).symm.trans (h.identifier second))
  · rintro rfl
    have place := (Inventory.getElem?_eq_some_iff_idxOf h.identifiers_nodup).mp (h.identifier first)
    have place' := (Inventory.getElem?_eq_some_iff_idxOf h.identifiers_nodup).mp (h.identifier second)
    rw [place.2, place'.2]

/-- Calls have the same index exactly if they have the same qualifier and name, and the same number
of arguments. -/
theorem call_index_iff (h : t.Coherent features) {qualifier qualifier' : Option String}
    {name name' : String} {index index' : Nat} {arguments arguments' : List Node}
    (first : .call qualifier name index arguments ∈ t.root.subnodes)
    (second : .call qualifier' name' index' arguments' ∈ t.root.subnodes) :
    index = index' ↔
      qualifier = qualifier' ∧ name = name' ∧ arguments.length = arguments'.length := by
  constructor
  · rintro rfl
    have same := Option.some.inj ((h.call first).symm.trans (h.call second))
    rw [CallSite.mk.injEq] at same
    exact ⟨same.1, same.2.1, same.2.2.1⟩
  · rintro ⟨rfl, rfl, arity⟩
    have place := (Inventory.getElem?_eq_some_iff_idxOf h.functions_nodup).mp (h.call first)
    have place' := (Inventory.getElem?_eq_some_iff_idxOf h.functions_nodup).mp (h.call second)
    rw [place.2, place'.2, arity]

end Coherent

theorem tape_of_call : tape "$\x7bf(a)\x7d" =
    ⟨[⟨.startDynamic, "$\x7b", 0⟩, ⟨.identifier, "f", 2⟩, ⟨.leftParen, "(", 3⟩,
      ⟨.identifier, "a", 4⟩, ⟨.rightParen, ")", 5⟩, ⟨.endEval, "\x7d", 6⟩], .ok 7⟩ :=
  Scanner.tape_of_steps 7 rfl

theorem compile_call : compile features "$\x7bf(a)\x7d" =
    .ok ⟨.eval false (.call none "f" 0 [.identifier "a" 0]), false, ["a"],
      [⟨none, "f", 1, features.varargs⟩]⟩ := by
  have argument : Derives features .expression [⟨.identifier, "a", 4⟩, ⟨.rightParen, ")", 5⟩,
      ⟨.endEval, "\x7d", 6⟩] [.identifier "a" 0] [⟨.rightParen, ")", 5⟩, ⟨.endEval, "\x7d", 6⟩] :=
    .condition ((Derives.value (.primary (.identifier rfl (by decide)))).chain _)
  have fits : (Node.call none "f" 0 [.identifier "a" 0]).Fits 1 1 := by
    simp only [Node.Fits, Node.FitAll]
    decide
  rw [compile_of_value tape_of_call rfl
    (.primary (.call rfl (.arguments rfl argument .noFurther rfl))) rfl fits, ofRoot_eq]
  rfl

/-- The inventories of a compiled template are coherent with its tree. So identifiers share an index
exactly if they share their name, and calls exactly if they call the same name in the same way,
wherever they stand in the template. -/
theorem compile_coherent (compiled : compile features source = .ok t) :
    t.Coherent features ∧
    (∀ name index name' index', .identifier name index ∈ t.root.subnodes →
      .identifier name' index' ∈ t.root.subnodes → (index = index' ↔ name = name')) ∧
    ∀ qualifier name index arguments qualifier' name' index' arguments',
      .call qualifier name index arguments ∈ t.root.subnodes →
      .call qualifier' name' index' arguments' ∈ t.root.subnodes →
      (index = index' ↔
        qualifier = qualifier' ∧ name = name' ∧ arguments.length = arguments'.length) := by
  obtain ⟨_, _, root, deferred, -, -, -, rfl⟩ := compile_eq_ok_iff.mp compiled
  have coherent := ofRoot_coherent features root deferred
  exact ⟨coherent, fun _ _ _ _ => coherent.identifier_index_iff,
    fun _ _ _ _ _ _ _ _ => coherent.call_index_iff⟩

/-- A call of a function on a variable. -/
theorem compile_coherent_call :
    compile .none "$\x7bf(a)\x7d" = .ok ⟨.eval false (.call none "f" 0 [.identifier "a" 0]), false,
      ["a"], [⟨none, "f", 1, false⟩]⟩ ∧
    Coherent .none ⟨.eval false (.call none "f" 0 [.identifier "a" 0]), false, ["a"],
      [⟨none, "f", 1, false⟩]⟩ :=
  ⟨compile_call, (compile_coherent compile_call).1⟩

end ElTemplate.Template
