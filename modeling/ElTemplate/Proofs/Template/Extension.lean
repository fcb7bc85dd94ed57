import ElTemplate.Proofs.Grammar.Features
import ElTemplate.Proofs.Template.Binding
import ElTemplate.Proofs.Template.Coherence

/-!
# Templates under more features

More features accept more sources and change nothing else: what was accepted before has the same
tree, the same names and the same bindings, and only its call sites may now absorb arguments.
-/

namespace ElTemplate

namespace CallSite

/-- The call site where variadic signatures may absorb arguments, or not. -/
def withVariadic (variadic : Bool) (site : CallSite) : CallSite :=
  { site with variadic }

variable {functions : Option FunctionResolver} {site : CallSite} {sites : List CallSite}
  {signature : Signature} {signatures : List Signature} {variadic : Bool}

/-- A function that may be called may also be called where arguments may be absorbed. -/
theorem Resolves.withVariadic (h : site.Resolves functions signature)
    (more : site.variadic → variadic) :
    (site.withVariadic variadic).Resolves functions signature := by
  obtain ⟨answer, accepted⟩ := h
  refine ⟨answer, ?_⟩
  simp only [accepts, CallSite.withVariadic] at accepted ⊢
  grind

theorem resolves_map_withVariadic (h : List.Forall₂ (Resolves functions) sites signatures)
    (more : ∀ site ∈ sites, site.variadic → variadic) :
    List.Forall₂ (Resolves functions) (sites.map (withVariadic variadic)) signatures := by
  induction h with
  | nil => exact .nil
  | cons first _ ih =>
    have ⟨here, later⟩ := List.forall_mem_cons.mp more
    exact .cons (first.withVariadic here) (ih later)

end CallSite

theorem Node.isMethod_reindex (places : Places) (x : Node) :
    (x.reindex places).isMethod = x.isMethod := by
  cases x <;> rfl

namespace Template

open Grammar

variable {features features' : FeatureSet} {source : String}

/-- The template with all its call sites changed in this way. -/
def withVariadic (variadic : Bool) (t : Template) : Template :=
  { t with functions := t.functions.map (CallSite.withVariadic variadic) }

/-- What the features are matters to the call sites of a template only. -/
theorem ofRoot_withVariadic (features features' : FeatureSet) (root : Node) (deferred : Bool) :
    (ofRoot features root deferred).withVariadic features'.varargs =
      ofRoot features' root deferred := by
  rw [ofRoot_eq, ofRoot_eq, withVariadic, List.map_map]
  rfl

theorem variadic_of_mem_ofRoot {root : Node} {deferred : Bool} {site : CallSite}
    (member : site ∈ (ofRoot features root deferred).functions) :
    site.variadic = features.varargs := by
  rw [ofRoot_eq, List.mem_map] at member
  obtain ⟨callee, -, rfl⟩ := member
  rfl

/-- More features accept every source that fewer accept, with the same tree and names, and bind it
in the same way. And fewer features accept every source without methods that more accept. -/
theorem compile_extension
    (more : ∀ feature, features.contains feature → features'.contains feature) :
    (∀ t, compile features source = .ok t →
      compile features' source = .ok (t.withVariadic features'.varargs) ∧
      ∀ {β : Type} (functions : Option FunctionResolver) (values : Option (VariableResolver β)) b,
        t.bind functions values = .ok b →
          (t.withVariadic features'.varargs).bind functions values = .ok b) ∧
    ∀ t', compile features' source = .ok t' → (∀ y ∈ t'.root.subnodes, y.isMethod = false) →
      ∃ t, compile features source = .ok t ∧ t.root = t'.root := by
  constructor
  · intro t compiled
    obtain ⟨tokens, stop, root, deferred, scanned, sentence, fits, rfl⟩ :=
      compile_eq_ok_iff.mp compiled
    constructor
    · have allows : Allows features features' [root] :=
        fun enabled _ _ _ => more .methodInvocations enabled
      rw [ofRoot_withVariadic]
      exact compile_eq_ok_iff.mpr
        ⟨tokens, stop, root, deferred, scanned, sentence.allowed allows, fits, rfl⟩
    · intro β functions values b bound
      obtain ⟨signatures, resolved, rfl⟩ := bind_eq_ok_iff.mp bound
      have resolved' := CallSite.resolves_map_withVariadic resolved fun site member absorbs =>
        more .varargs ((variadic_of_mem_ofRoot member).symm.trans absorbs)
      exact bind_eq_ok_iff.mpr ⟨signatures, resolved', rfl⟩
  · intro t' compiled methodFree
    obtain ⟨tokens, stop, root, deferred, scanned, sentence, fits, rfl⟩ :=
      compile_eq_ok_iff.mp compiled
    have allows : Allows features' features [root] := by
      intro _ y below method
      rw [Node.subnodesAll, Node.subnodesAll, List.append_nil] at below
      rw [ofRoot_eq, Node.subnodes_reindex] at methodFree
      have free := methodFree _ (List.mem_map_of_mem below)
      rw [Node.isMethod_reindex, method] at free
      cases free
    refine ⟨ofRoot features root deferred, ?_, ?_⟩
    · exact compile_eq_ok_iff.mpr
        ⟨tokens, stop, root, deferred, scanned, sentence.allowed allows, fits, rfl⟩
    · rw [← ofRoot_withVariadic features features']
      rfl

/-- A call under no features is the same call under all features. -/
theorem compile_extension_call :
    let t : Template := ⟨.eval false (.call none "f" 0 [.identifier "a" 0]), false, ["a"],
      [⟨none, "f", 1, false⟩]⟩
    compile .none "$\x7bf(a)\x7d" = .ok t ∧
    compile ⟨true, true⟩ "$\x7bf(a)\x7d" = .ok (t.withVariadic true) := by
  intro t
  have compiled : compile .none "$\x7bf(a)\x7d" = .ok t := compile_call
  have more : ∀ feature, FeatureSet.none.contains feature →
      FeatureSet.contains ⟨true, true⟩ feature := by
    rintro (_ | _) <;> decide
  exact ⟨compiled, ((compile_extension more).1 t compiled).1⟩

end Template

end ElTemplate
