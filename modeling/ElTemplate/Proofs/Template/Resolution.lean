import ElTemplate.Proofs.Template.Binding
import ElTemplate.Proofs.Template.Coherence

/-!
# Which templates can be bound

Binding looks at the inventory of call sites alone. For a compiled template that is enough: it can
be bound exactly if every call of its tree may be made, in whatever block and under whatever other
nodes the call stands, and the values of variables play no part in it.
-/

namespace ElTemplate

/-- The resolver that is asked with a prefix, which is empty for a name without a qualifier. -/
def FunctionResolver.ofPrefixed (resolve : String → String → Option Signature) :
    FunctionResolver :=
  fun qualifier name => resolve (qualifier.getD "") name

namespace CallSite

variable {mapper : Option (String → String → Option Signature)} {site : CallSite}
  {signature : Signature} {e : BindError}

/-- A call with this many arguments suits the signature: there is one for each parameter, or both
the template and the function are variadic and at most the last parameter lacks one. -/
def Fits (site : CallSite) (signature : Signature) : Prop :=
  site.arity = signature.params ∨
    site.variadic ∧ signature.variadic ∧ (signature.params : Int) - 1 ≤ site.arity

theorem accepts_iff : site.accepts signature ↔ site.Fits signature := by
  rw [accepts, Fits]
  by_cases variadic : site.variadic ∧ signature.variadic
  · rw [if_pos ((Bool.and_eq_true _ _).mpr variadic), decide_eq_true_iff]
    constructor
    · intro enough
      exact .inr ⟨variadic.1, variadic.2, by omega⟩
    · rintro (equal | ⟨-, -, enough⟩) <;> omega
  · rw [if_neg (mt (Bool.and_eq_true _ _).mp variadic), beq_iff_eq]
    constructor
    · exact .inl
    · rintro (equal | ⟨template, function, -⟩)
      · exact equal
      · exact absurd ⟨template, function⟩ variadic

/-- The call may be made: there is a mapper, it knows the function, and the arguments suit it. -/
def Callable (mapper : Option (String → String → Option Signature)) (site : CallSite) : Prop :=
  ∃ resolve signature, mapper = some resolve ∧
    resolve (site.qualifier.getD "") site.name = some signature ∧ site.Fits signature

/-- What is wrong with a call that may not be made. -/
inductive Fails (mapper : Option (String → String → Option Signature)) (site : CallSite) :
    BindError → Prop where
  | unmapped (none : mapper = none) : Fails mapper site (.unknownFunction site.qualifiedName)
  | unknown {resolve : String → String → Option Signature} (mapped : mapper = some resolve)
      (none : resolve (site.qualifier.getD "") site.name = none) :
      Fails mapper site (.unknownFunction site.qualifiedName)
  | misfit {resolve : String → String → Option Signature} {signature : Signature}
      (mapped : mapper = some resolve)
      (found : resolve (site.qualifier.getD "") site.name = some signature)
      (misfit : ¬ site.Fits signature) :
      Fails mapper site (.argumentCount site.qualifiedName signature.params site.arity)

theorem callable_iff :
    site.Callable mapper ↔ ∃ signature, site.Resolves (mapper.map .ofPrefixed) signature := by
  simp only [Callable, Resolves, FunctionResolver.answer?, accepts_iff]
  cases mapper with
  | none => simp
  | some resolve => simp [FunctionResolver.ofPrefixed]

theorem resolve_eq_error_iff :
    site.resolve (mapper.map .ofPrefixed) = .error e ↔ site.Fails mapper e := by
  constructor
  · intro failed
    cases mapper with
    | none =>
      cases failed
      exact .unmapped rfl
    | some resolve =>
      cases found : resolve (site.qualifier.getD "") site.name with
      | none =>
        simp only [CallSite.resolve, Option.map_some, Option.bind_some,
          FunctionResolver.ofPrefixed, found] at failed
        cases failed
        exact .unknown rfl found
      | some signature =>
        simp only [CallSite.resolve, Option.map_some, Option.bind_some,
          FunctionResolver.ofPrefixed, found] at failed
        split at failed
        · cases failed
        · next refused =>
          cases failed
          exact .misfit rfl found (mt accepts_iff.mpr refused)
  · rintro (rfl | ⟨rfl, unknown⟩ | ⟨rfl, found, misfit⟩)
    · rfl
    · simp only [resolve, Option.map_some, Option.bind_some, FunctionResolver.ofPrefixed, unknown]
    · simp only [resolve, Option.map_some, Option.bind_some, FunctionResolver.ofPrefixed, found,
        if_neg (mt accepts_iff.mp misfit)]

end CallSite

namespace Template

variable {features : FeatureSet} {source : String} {t : Template}

/-- What holds of the entries of the inventory holds of the calls in the tree. -/
theorem Coherent.forall_functions_iff (h : t.Coherent features) {P : CallSite → Prop} :
    (∀ site ∈ t.functions, P site) ↔
      ∀ qualifier name index arguments, .call qualifier name index arguments ∈ t.root.subnodes →
        P ⟨qualifier, name, arguments.length, features.varargs⟩ := by
  constructor
  · intro all qualifier name index arguments below
    exact all _ (List.mem_of_getElem? (h.call below))
  · intro all site member
    obtain ⟨index, entry⟩ := List.mem_iff_getElem?.mp member
    obtain ⟨arguments, -, below⟩ := h.call_used entry
    have same := (h.call below).symm.trans entry
    rw [← Option.some.inj same]
    exact all _ _ _ _ below

/-- A compiled template can be bound exactly if there is a mapper for every call anywhere in it and
the mapper finds a function there that the arguments suit. If it cannot be bound, the error is that
of the first entry of the inventory whose call may not be made. Both are so whatever finds the
values of the variables. -/
theorem bind_of_compile (compiled : compile features source = .ok t) {β : Type}
    (mapper : Option (String → String → Option Signature)) (values : Option (VariableResolver β)) :
    ((∃ b, t.bind (mapper.map .ofPrefixed) values = .ok b) ↔
      ∀ qualifier name index arguments, .call qualifier name index arguments ∈ t.root.subnodes →
        CallSite.Callable mapper ⟨qualifier, name, arguments.length, features.varargs⟩) ∧
    ∀ e, t.bind (mapper.map .ofPrefixed) values = .error e ↔
      ∃ before site behind, t.functions = before ++ site :: behind ∧
        (∀ s ∈ before, s.Callable mapper) ∧ site.Fails mapper e := by
  obtain ⟨_, _, root, deferred, -, -, -, rfl⟩ := compile_eq_ok_iff.mp compiled
  constructor
  · rw [exists_bind_iff, ← (ofRoot_coherent features root deferred).forall_functions_iff]
    simp only [CallSite.callable_iff]
  · intro e
    rw [bind_eq_error_iff, CallSite.resolveAll_eq_error_iff]
    simp only [CallSite.callable_iff, CallSite.resolve_eq_error_iff, and_comm]

/-- A variadic function of two parameters takes a single argument. -/
theorem bind_of_compile_call :
    compile ⟨false, true⟩ "$\x7bf(a)\x7d" =
      .ok ⟨.eval false (.call none "f" 0 [.identifier "a" 0]), false, ["a"],
        [⟨none, "f", 1, true⟩]⟩ ∧
    ∃ b, Template.bind ⟨.eval false (.call none "f" 0 [.identifier "a" 0]), false, ["a"],
        [⟨none, "f", 1, true⟩]⟩
      ((some fun qualifier name =>
        if qualifier = "" ∧ name = "f" then some ⟨"f", 2, true⟩ else none).map .ofPrefixed)
      (none : Option (VariableResolver Nat)) = .ok b := by
  have compiled : compile ⟨false, true⟩ "$\x7bf(a)\x7d" =
      .ok ⟨.eval false (.call none "f" 0 [.identifier "a" 0]), false, ["a"],
        [⟨none, "f", 1, true⟩]⟩ := compile_call
  refine ⟨compiled, (bind_of_compile compiled _ _).1.mpr ?_⟩
  intro qualifier name index arguments below
  simp only [Node.subnodes, Node.subnodesAll, List.mem_cons, List.not_mem_nil, or_false,
    List.append_nil, reduceCtorEq, false_or, Node.call.injEq] at below
  obtain ⟨rfl, rfl, rfl, rfl⟩ := below
  exact ⟨_, ⟨"f", 2, true⟩, rfl, rfl, .inr (by decide)⟩

end Template

end ElTemplate
