import ElTemplate.Proofs.Template.Binding
import ElTemplate.Proofs.Template.Coherence

/-!
# The canonical text of bound templates

Bindings know indices only. Still the canonical text of a bound template masks names: those of the
variables that are resolved, and those of all calls.
-/

namespace ElTemplate

namespace Node

mutual

/-- The tree with `<var>` in place of each identifier that is resolved, and `<fn>` in place of the
name of each call. -/
def mask (resolved : String → Bool) : Node → Node
  | text raw => text raw
  | eval deferred child => eval deferred (child.mask resolved)
  | literal value => literal value
  | identifier name index => identifier (if resolved name then "<var>" else name) index
  | property base name assignable => property (base.mask resolved) name assignable
  | item base key assignable => item (base.mask resolved) (key.mask resolved) assignable
  | bracket inner => bracket (inner.mask resolved)
  | unary op operand => unary op (operand.mask resolved)
  | binary op left right => binary op (left.mask resolved) (right.mask resolved)
  | ternary condition yes no =>
    ternary (condition.mask resolved) (yes.mask resolved) (no.mask resolved)
  | call _ _ index arguments => call none "<fn>" index (maskAll resolved arguments)
  | method target arguments => method (target.mask resolved) (maskAll resolved arguments)
  | composite parts => composite (maskAll resolved parts)

/-- The trees with their names masked. -/
def maskAll (resolved : String → Bool) : List Node → List Node
  | [] => []
  | node :: rest => node.mask resolved :: maskAll resolved rest

end

variable {β : Type} {b : Bindings β} {resolved : String → Bool}

/-- The node has a value exactly if it is an identifier that is resolved, and a signature if it is
a call. -/
def BoundBy (b : Bindings β) (resolved : String → Bool) : Node → Prop
  | identifier name index => (b.value? index).isSome = resolved name
  | call _ _ index _ => (b.signature? index).isSome
  | _ => True

section Spelling

attribute [local simp] canonical subnodes subnodesAll mask maskAll spelling spellArguments
  spellFurther spellParts

mutual

/-- The text of a tree under bindings of its names is that of the masked tree. -/
theorem spelling_eq_canonical_mask (x : Node) (bound : ∀ y ∈ x.subnodes, y.BoundBy b resolved) :
    x.spelling b = (x.mask resolved).canonical := by
  cases x with
  | text raw => rfl
  | eval deferred child =>
    simpa using spelling_eq_canonical_mask child (List.forall_mem_cons.mp bound).2
  | literal value => rfl
  | identifier name index =>
    have value : (b.value? index).isSome = resolved name := bound _ (List.mem_singleton_self _)
    simp [value]
  | property base name assignable =>
    simpa using spelling_eq_canonical_mask base (List.forall_mem_cons.mp bound).2
  | item base key assignable =>
    have ⟨first, second⟩ := List.forall_mem_append.mp (List.forall_mem_cons.mp bound).2
    simp [spelling_eq_canonical_mask base first, spelling_eq_canonical_mask key second]
  | bracket inner => simpa using spelling_eq_canonical_mask inner (List.forall_mem_cons.mp bound).2
  | unary op operand =>
    simpa using spelling_eq_canonical_mask operand (List.forall_mem_cons.mp bound).2
  | binary op left right =>
    have ⟨first, second⟩ := List.forall_mem_append.mp (List.forall_mem_cons.mp bound).2
    simp [spelling_eq_canonical_mask left first, spelling_eq_canonical_mask right second]
  | ternary condition yes no =>
    have ⟨first, rest⟩ := List.forall_mem_append.mp (List.forall_mem_cons.mp bound).2
    have ⟨second, third⟩ := List.forall_mem_append.mp rest
    simp [spelling_eq_canonical_mask condition first, spelling_eq_canonical_mask yes second,
      spelling_eq_canonical_mask no third]
  | call qualifier name index arguments =>
    have ⟨signature, rest⟩ := List.forall_mem_cons.mp bound
    have name : callName b qualifier name index = "<fn>" := if_pos signature
    have masked : callName (Bindings.empty : Bindings Empty) none "<fn>" index = "<fn>" := rfl
    simp [name, masked, spellArguments_eq_maskAll arguments rest]
  | method target arguments =>
    have ⟨first, rest⟩ := List.forall_mem_append.mp (List.forall_mem_cons.mp bound).2
    simp [spelling_eq_canonical_mask target first, spellArguments_eq_maskAll arguments rest]
  | composite parts => simpa using spellParts_eq_maskAll parts (List.forall_mem_cons.mp bound).2

theorem spellArguments_eq_maskAll (xs : List Node)
    (bound : ∀ y ∈ subnodesAll xs, y.BoundBy b resolved) :
    spellArguments b xs =
      spellArguments (Bindings.empty : Bindings Empty) (maskAll resolved xs) := by
  cases xs with
  | nil => rfl
  | cons x xs =>
    have ⟨first, rest⟩ := List.forall_mem_append.mp bound
    simp [spelling_eq_canonical_mask x first, spellFurther_eq_maskAll xs rest]

theorem spellFurther_eq_maskAll (xs : List Node)
    (bound : ∀ y ∈ subnodesAll xs, y.BoundBy b resolved) :
    spellFurther b xs = spellFurther (Bindings.empty : Bindings Empty) (maskAll resolved xs) := by
  cases xs with
  | nil => rfl
  | cons x xs =>
    have ⟨first, rest⟩ := List.forall_mem_append.mp bound
    simp [spelling_eq_canonical_mask x first, spellFurther_eq_maskAll xs rest]

theorem spellParts_eq_maskAll (xs : List Node)
    (bound : ∀ y ∈ subnodesAll xs, y.BoundBy b resolved) :
    spellParts b xs = spellParts (Bindings.empty : Bindings Empty) (maskAll resolved xs) := by
  cases xs with
  | nil => rfl
  | cons x xs =>
    have ⟨first, rest⟩ := List.forall_mem_append.mp bound
    simp [spelling_eq_canonical_mask x first, spellParts_eq_maskAll xs rest]

end

end Spelling

end Node

namespace Template

variable {β : Type} {features : FeatureSet} {source : String} {t : Template}
  {functions : Option FunctionResolver} {values : Option (VariableResolver β)} {b : Bindings β}

/-- Binding a coherent template gives its nodes what their names resolve to. -/
theorem Coherent.boundBy (coherent : t.Coherent features) (bound : t.bind functions values = .ok b) :
    ∀ y ∈ t.root.subnodes,
      y.BoundBy b fun name => (VariableResolver.answer? values name).isSome := by
  intro y below
  cases y with
  | identifier name index =>
    show (b.value? index).isSome = _
    rw [value?_of_bind bound, coherent.identifier below, Option.bind_some]
  | call qualifier name index arguments =>
    have entry := coherent.call below
    obtain ⟨signature, answer, -⟩ := resolves_of_bind bound (List.mem_of_getElem? entry)
    show (b.signature? index).isSome
    rw [signature?_of_bind bound, entry, Option.bind_some, answer]
    rfl
  | _ => trivial

/-- The canonical text of a template under its bindings has `<var>` for every identifier that the
caller resolves and `<fn>` for the name of every call, and is otherwise as without bindings. The
bindings have the caller's answers for the entries of the inventories, and none past their end. -/
theorem spelling_bind (compiled : compile features source = .ok t)
    (bound : t.bind functions values = .ok b) :
    t.spelling b =
      (t.root.mask fun name => (VariableResolver.answer? values name).isSome).canonical ∧
    (∀ index, b.signature? index =
      t.functions[index]?.bind (FunctionResolver.answer? functions)) ∧
    ∀ index, b.value? index = t.identifiers[index]?.bind (VariableResolver.answer? values) := by
  obtain ⟨_, _, root, deferred, -, -, -, rfl⟩ := compile_eq_ok_iff.mp compiled
  have coherent := ofRoot_coherent features root deferred
  refine ⟨?_, signature?_of_bind bound, value?_of_bind bound⟩
  exact Node.spelling_eq_canonical_mask _ (coherent.boundBy bound)

/-- A call with both of its names bound. -/
theorem spelling_bind_call :
    let t : Template := ⟨.eval false (.call none "f" 0 [.identifier "a" 0]), false, ["a"],
      [⟨none, "f", 1, false⟩]⟩
    let b : Bindings Bool := ⟨[some ⟨"f", 1, false⟩], [some true]⟩
    compile .none "$\x7bf(a)\x7d" = .ok t ∧
    t.bind (some (.ofList [⟨"f", 1, false⟩])) (some fun _ => some true) = .ok b ∧
    t.spelling b = "$\x7b<fn>(<var>)\x7d" := by
  intro t b
  have compiled : compile .none "$\x7bf(a)\x7d" = .ok t := compile_call
  have bound : t.bind (some (.ofList [⟨"f", 1, false⟩])) (some fun _ => some true) = .ok b := rfl
  have masked : (t.root.mask fun _ => true).canonical = "$\x7b<fn>(<var>)\x7d" := by decide
  exact ⟨compiled, bound, (spelling_bind compiled bound).1.trans masked⟩

end Template

end ElTemplate
