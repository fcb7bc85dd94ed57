import ElTemplate.Template.Binding
import Mathlib.Data.List.Forall2

/-!
# What binding finds

Binding succeeds exactly if the resolver finds an acceptable signature for every call site, and then
it records the resolvers' answers in the order of the inventories.
-/

namespace ElTemplate

/-- The answer for a call site; a missing resolver resolves nothing. -/
def FunctionResolver.answer? (functions : Option FunctionResolver) (site : CallSite) :
    Option Signature :=
  functions.bind fun resolve => resolve site.qualifier site.name

/-- The answer for a variable; a missing resolver resolves nothing. -/
def VariableResolver.answer? {β : Type} (values : Option (VariableResolver β)) (name : String) :
    Option β :=
  values.bind fun resolve => resolve name

namespace CallSite

variable {functions : Option FunctionResolver} {site : CallSite} {sites : List CallSite}
  {signature : Signature} {signatures : List Signature}

/-- The resolver finds this signature for the call site, and it may be called there. -/
def Resolves (functions : Option FunctionResolver) (site : CallSite) (signature : Signature) :
    Prop :=
  FunctionResolver.answer? functions site = some signature ∧ site.accepts signature

theorem resolve_eq_ok_iff :
    site.resolve functions = .ok signature ↔ site.Resolves functions signature := by
  simp only [resolve, Resolves, FunctionResolver.answer?]
  grind

theorem resolveAll_eq_ok_iff : resolveAll functions sites = .ok signatures ↔
    List.Forall₂ (Resolves functions) sites signatures := by
  induction sites generalizing signatures with
  | nil => simp [resolveAll, eq_comm]
  | cons site sites ih =>
    rw [List.forall₂_cons_left_iff]
    simp only [resolveAll, ← resolve_eq_ok_iff, ← ih]
    cases site.resolve functions with
    | error e => simp
    | ok signature =>
      cases resolveAll functions sites with
      | error e => simp
      | ok signatures => simp [eq_comm]

/-- The error is the one of the first call site that has one. -/
theorem resolveAll_eq_error_iff {e : BindError} : resolveAll functions sites = .error e ↔
    ∃ before site behind, sites = before ++ site :: behind ∧ site.resolve functions = .error e ∧
      ∀ s ∈ before, ∃ signature, s.Resolves functions signature := by
  induction sites with
  | nil => simp [resolveAll]
  | cons first sites ih =>
    rw [resolveAll]
    constructor
    · intro failed
      cases found : first.resolve functions with
      | error e' =>
        rw [found] at failed
        cases failed
        exact ⟨[], first, sites, rfl, found, List.forall_mem_nil _⟩
      | ok signature =>
        have failed : resolveAll functions sites = .error e := by
          rw [found] at failed
          cases later : resolveAll functions sites with
          | error e' => rwa [later] at failed
          | ok signatures =>
            rw [later] at failed
            cases failed
        obtain ⟨before, site, behind, rfl, fails, earlier⟩ := ih.mp failed
        exact ⟨first :: before, site, behind, rfl, fails,
          List.forall_mem_cons.mpr ⟨⟨signature, resolve_eq_ok_iff.mp found⟩, earlier⟩⟩
    · rintro ⟨before, site, behind, same, fails, earlier⟩
      cases before with
      | nil =>
        cases same
        rw [fails]
      | cons _ before =>
        cases same
        obtain ⟨⟨signature, resolves⟩, earlier⟩ := List.forall_mem_cons.mp earlier
        rw [resolve_eq_ok_iff.mpr resolves, ih.mpr ⟨before, site, behind, rfl, fails, earlier⟩]

theorem answers_of_resolves (h : List.Forall₂ (Resolves functions) sites signatures) :
    sites.map (FunctionResolver.answer? functions) = signatures.map some := by
  induction h with
  | nil => rfl
  | cons first _ ih => rw [List.map_cons, List.map_cons, first.1, ih]

/-- There are signatures for call sites in order exactly if there is one for each. -/
theorem exists_signatures_iff : (∃ signatures, List.Forall₂ (Resolves functions) sites signatures) ↔
    ∀ site ∈ sites, ∃ signature, site.Resolves functions signature := by
  induction sites with
  | nil => simp
  | cons site sites ih =>
    rw [List.forall_mem_cons, ← ih]
    constructor
    · rintro ⟨_, _ | ⟨first, more⟩⟩
      exact ⟨⟨_, first⟩, _, more⟩
    · rintro ⟨⟨signature, first⟩, signatures, more⟩
      exact ⟨signature :: signatures, .cons first more⟩

end CallSite

namespace Template

variable {β : Type} {t : Template} {functions : Option FunctionResolver}
  {values : Option (VariableResolver β)} {b : Bindings β}

theorem bind_eq_ok_iff : t.bind functions values = .ok b ↔
    ∃ signatures, List.Forall₂ (CallSite.Resolves functions) t.functions signatures ∧
      b = ⟨signatures.map some, t.identifiers.map (VariableResolver.answer? values)⟩ := by
  simp only [bind, ← CallSite.resolveAll_eq_ok_iff]
  cases CallSite.resolveAll functions t.functions with
  | error e => simp
  | ok signatures =>
    simp only [Except.ok.injEq, exists_eq_left', eq_comm]
    rfl

theorem bind_eq_error_iff {e : BindError} :
    t.bind functions values = .error e ↔ CallSite.resolveAll functions t.functions = .error e := by
  rw [bind]
  cases CallSite.resolveAll functions t.functions <;> simp

/-- The bound functions are the answers for the call sites; past their end nothing is bound. -/
theorem signature?_of_bind (bound : t.bind functions values = .ok b) (index : Nat) :
    b.signature? index = t.functions[index]?.bind (FunctionResolver.answer? functions) := by
  obtain ⟨signatures, resolved, rfl⟩ := bind_eq_ok_iff.mp bound
  rw [Bindings.signature?, ← CallSite.answers_of_resolves resolved, List.getElem?_map]
  cases t.functions[index]? <;> rfl

/-- The bound values are the answers for the variables; past their end nothing is bound. -/
theorem value?_of_bind (bound : t.bind functions values = .ok b) (index : Nat) :
    b.value? index = t.identifiers[index]?.bind (VariableResolver.answer? values) := by
  obtain ⟨signatures, -, rfl⟩ := bind_eq_ok_iff.mp bound
  rw [Bindings.value?, List.getElem?_map]
  cases t.identifiers[index]? <;> rfl

/-- A template can be bound exactly if every call site of its inventory is answered. -/
theorem exists_bind_iff : (∃ b, t.bind functions values = .ok b) ↔
    ∀ site ∈ t.functions, ∃ signature, site.Resolves functions signature := by
  rw [← CallSite.exists_signatures_iff]
  simp only [bind_eq_ok_iff]
  exact ⟨fun ⟨_, signatures, resolved, _⟩ => ⟨signatures, resolved⟩,
    fun ⟨signatures, resolved⟩ => ⟨_, signatures, resolved, rfl⟩⟩

/-- Every call site of a bound template is answered. -/
theorem resolves_of_bind (bound : t.bind functions values = .ok b) {site : CallSite}
    (member : site ∈ t.functions) : ∃ signature, site.Resolves functions signature :=
  exists_bind_iff.mp ⟨b, bound⟩ site member

end Template

end ElTemplate
