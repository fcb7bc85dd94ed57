import ElTemplate.Proofs.Cache.Contents
import ElTemplate.Proofs.Cache.Transparency

/-!
# Failing builds leave no trace

A store asks its builder exactly when its cache does not hold the text, and holds what was built
from then on. A text that does not compile is looked up like any other, which may let the clock of
a segment go on, but no later request can tell: both states show the same lineups, and so do all
that follow. Leaving a failing request out of a run changes nothing but the number of builds.
-/

namespace ElTemplate.Store

/-- What a caller sees of a request: the answer, and how many templates are cached after it. -/
structure Observation where
  answer : Answer
  size : Nat

/-- What a caller sees of requests in order. -/
def observations (s : Store) : List Request → List Observation
  | [] => []
  | request :: rest =>
    let (answer, s) := s.answer request
    ⟨answer, s.cache.size⟩ :: s.observations rest

/-- The store after requests in order. -/
def after (s : Store) : List Request → Store
  | [] => s
  | request :: rest => (s.answer request).2.after rest

/-- The request asks for the template of a text that the cache does not hold. -/
def Misses (s : Store) : Request → Prop
  | .compile source => ∀ template, ¬ s.cache.Stores source template
  | .cached _ => False

variable {s t : Store} {source : String} {template : Template} {e : CompileError}
  {r : Cache.Lineups Template} {requests : List Request} {request : Request} {i : Nat}

section Compile

theorem compile_of_hit (hit : (s.cache.get? source).1 = some template) :
    s.compile source = (.ok template, { s with cache := (s.cache.get? source).2 }) := by
  have read : s.cache.get? source = (some template, (s.cache.get? source).2) := Prod.ext hit rfl
  rw [compile, read]

variable (miss : (s.cache.get? source).1 = none)

include miss

theorem compile_of_built (built : s.build source = .ok template) :
    s.compile source = (.ok template,
      { s with
        cache := (s.cache.get? source).2.put source template
        builds := s.builds + 1 }) := by
  have read : s.cache.get? source = (none, (s.cache.get? source).2) := Prod.ext miss rfl
  rw [compile, read]
  simp only [built]

theorem compile_of_failed (failed : s.build source = .error e) :
    s.compile source = (.error e,
      { s with cache := (s.cache.get? source).2, builds := s.builds + 1 }) := by
  have read : s.cache.get? source = (none, (s.cache.get? source).2) := Prod.ext miss rfl
  rw [compile, read]
  simp only [failed]

end Compile

/-- A request for a template finds it, or builds it and keeps it, or fails. -/
theorem compile_cases (s : Store) (source : String) :
    (∃ template, (s.cache.get? source).1 = some template ∧
      s.compile source = (.ok template, { s with cache := (s.cache.get? source).2 })) ∨
    (∃ template, (s.cache.get? source).1 = none ∧ s.build source = .ok template ∧
      s.compile source = (.ok template,
        { s with
          cache := (s.cache.get? source).2.put source template
          builds := s.builds + 1 })) ∨
    ∃ e, (s.cache.get? source).1 = none ∧ s.build source = .error e ∧
      s.compile source = (.error e,
        { s with cache := (s.cache.get? source).2, builds := s.builds + 1 }) := by
  cases found : (s.cache.get? source).1 with
  | some template => exact .inl ⟨template, rfl, compile_of_hit found⟩
  | none =>
    cases built : s.build source with
    | ok template => exact .inr (.inl ⟨template, rfl, rfl, compile_of_built found built⟩)
    | error e => exact .inr (.inr ⟨e, rfl, rfl, compile_of_failed found built⟩)

/-- Only a miss can fail, and then the builder does. -/
theorem failed_of_compile (failed : (s.compile source).1 = .error e) :
    (s.cache.get? source).1 = none ∧ s.build source = .error e := by
  obtain ⟨_, -, compiled⟩ | ⟨_, -, -, compiled⟩ | ⟨e', miss, fails, compiled⟩ :=
    s.compile_cases source
  · cases (congrArg Prod.fst compiled).symm.trans failed
  · cases (congrArg Prod.fst compiled).symm.trans failed
  · cases (congrArg Prod.fst compiled).symm.trans failed
    exact ⟨miss, fails⟩

/-- The stores have the same builder, and their caches show the same lineups. -/
structure Alike (s t : Store) : Prop where
  build : s.build = t.build
  shown : ∃ r, s.cache.Shows r ∧ t.cache.Shows r

namespace Alike

theorem size_eq (h : s.Alike t) : s.cache.size = t.cache.size := by
  obtain ⟨r, first, second⟩ := h.shown
  exact (Cache.shows_simulation.size first).trans (Cache.shows_simulation.size second).symm

theorem get?_eq (h : s.Alike t) (source : String) :
    (s.cache.get? source).1 = (t.cache.get? source).1 := by
  obtain ⟨r, first, second⟩ := h.shown
  exact (Cache.shows_simulation.get? first source).1.trans
    (Cache.shows_simulation.get? second source).1.symm

/-- A request to stores that are alike is answered alike and takes as many builds. -/
theorem answer (h : s.Alike t) (request : Request) :
    (s.answer request).1 = (t.answer request).1 ∧
    (s.answer request).2.Alike (t.answer request).2 ∧
    (s.answer request).2.builds + t.builds = (t.answer request).2.builds + s.builds := by
  obtain ⟨r, first, second⟩ := h.shown
  cases request with
  | cached source =>
    have next := (Cache.shows_simulation.get? first source).2
    have next' := (Cache.shows_simulation.get? second source).2
    exact ⟨congrArg Answer.cached (h.get?_eq source), ⟨h.build, _, next, next'⟩, Nat.add_comm ..⟩
  | compile source =>
    have next := (Cache.shows_simulation.get? first source).2
    have next' := (Cache.shows_simulation.get? second source).2
    simp only [Store.answer]
    obtain ⟨template, found, compiled⟩ | ⟨template, miss, built, compiled⟩ |
      ⟨e, miss, failed, compiled⟩ := s.compile_cases source
    · have found' := (h.get?_eq source).symm.trans found
      rw [compiled, compile_of_hit found']
      exact ⟨rfl, ⟨h.build, _, next, next'⟩, Nat.add_comm ..⟩
    · have miss' := (h.get?_eq source).symm.trans miss
      rw [compiled, compile_of_built miss' (h.build ▸ built)]
      have kept := Cache.shows_simulation.put next source template
      have kept' := Cache.shows_simulation.put next' source template
      refine ⟨rfl, ⟨h.build, _, kept, kept'⟩, ?_⟩
      simp only
      omega
    · have miss' := (h.get?_eq source).symm.trans miss
      rw [compiled, compile_of_failed miss' (h.build ▸ failed)]
      refine ⟨rfl, ⟨h.build, _, next, next'⟩, ?_⟩
      simp only
      omega

theorem observations_eq (h : s.Alike t) (requests : List Request) :
    s.observations requests = t.observations requests := by
  induction requests generalizing s t with
  | nil => rfl
  | cons request rest ih =>
    obtain ⟨same, next, -⟩ := h.answer request
    simp only [observations, same, next.size_eq, ih next]

theorem builds_after (h : s.Alike t) (requests : List Request) :
    (s.after requests).builds + t.builds = (t.after requests).builds + s.builds := by
  induction requests generalizing s t with
  | nil => exact Nat.add_comm ..
  | cons request rest ih =>
    obtain ⟨-, next, counted⟩ := h.answer request
    have further := ih next
    simp only [after]
    omega

end Alike

/-- A failing request counts a build, and leaves the store alike. -/
theorem alike_of_failed (h : s.cache.Shows r) (failed : (s.compile source).1 = .error e) :
    (s.compile source).2.cache.Shows r ∧ (s.compile source).2.Alike s ∧
      (s.compile source).2.builds = s.builds + 1 := by
  obtain ⟨miss, fails⟩ := failed_of_compile failed
  rw [compile_of_failed miss fails]
  exact ⟨h.get?_of_none miss, ⟨rfl, r, h.get?_of_none miss, h⟩, rfl⟩

/-- The lineups of the cache are tidy. -/
def Orderly (s : Store) : Prop :=
  ∃ r : Cache.Lineups Template, s.cache.Shows r ∧ r.Tidy

namespace Orderly

theorem get?_eq_some_iff (h : s.Orderly) :
    (s.cache.get? source).1 = some template ↔ s.cache.Stores source template := by
  obtain ⟨r, shows, tidy⟩ := h
  exact shows.get?_eq_some_iff tidy

theorem misses_iff (h : s.Orderly) :
    s.Misses (.compile source) ↔ (s.cache.get? source).1 = none := by
  simp only [Misses, ← h.get?_eq_some_iff, Option.eq_none_iff_forall_ne_some, ne_eq]

theorem answer (h : s.Orderly) (request : Request) : (s.answer request).2.Orderly := by
  obtain ⟨r, shows, tidy⟩ := h
  cases request with
  | cached source =>
    exact ⟨_, (Cache.shows_simulation.get? shows source).2, tidy.get? source⟩
  | compile source =>
    have next := (Cache.shows_simulation.get? shows source).2
    simp only [Store.answer]
    obtain ⟨template, -, compiled⟩ | ⟨template, -, -, compiled⟩ | ⟨e, -, -, compiled⟩ :=
      s.compile_cases source
    · rw [compiled]
      exact ⟨_, next, tidy.get? source⟩
    · rw [compiled]
      exact ⟨_, Cache.shows_simulation.put next source template,
        (tidy.get? source).put source template⟩
    · rw [compiled]
      exact ⟨_, next, tidy.get? source⟩

theorem after (h : s.Orderly) (requests : List Request) : (s.after requests).Orderly := by
  induction requests generalizing s with
  | nil => exact h
  | cons request rest ih => exact ih (h.answer request)

/-- A failing request stores nothing. -/
theorem unchanged (h : s.Orderly) (failed : (s.compile source).1 = .error e) :
    (∀ key template,
      (s.compile source).2.cache.Stores key template ↔ s.cache.Stores key template) ∧
    (s.compile source).2.cache.size = s.cache.size := by
  obtain ⟨r, shows, tidy⟩ := h
  obtain ⟨still, alike, -⟩ := alike_of_failed shows failed
  exact ⟨fun key template => (still.stores_iff tidy).trans (shows.stores_iff tidy).symm,
    alike.size_eq⟩

/-- Without a failing request, a run is the same but for one build. -/
theorem erased (h : s.Orderly) (failed : (s.answers requests)[i]? = some (.compiled (.error e))) :
    s.observations (requests.eraseIdx i) = (s.observations requests).eraseIdx i ∧
    (s.after requests).builds = (s.after (requests.eraseIdx i)).builds + 1 := by
  induction requests generalizing s i with
  | nil => cases failed
  | cons request rest ih =>
    cases i with
    | zero =>
      cases request with
      | cached source => cases failed
      | compile source =>
        have failed : (s.compile source).1 = .error e := by
          simpa [answers, Store.answer] using failed
        obtain ⟨r, shows, -⟩ := h
        obtain ⟨-, alike, counted⟩ := alike_of_failed shows failed
        have total := alike.builds_after rest
        refine ⟨(alike.observations_eq rest).symm, ?_⟩
        simp only [Store.after, Store.answer, List.eraseIdx_cons_zero]
        omega
    | succ i =>
      obtain ⟨same, counted⟩ := ih (h.answer request) failed
      refine ⟨?_, counted⟩
      simp only [List.eraseIdx_cons_succ, observations, same]

/-- The builder is asked once on a miss, and not otherwise. -/
theorem builds_answer (h : s.Orderly) (request : Request) :
    (s.Misses request → (s.answer request).2.builds = s.builds + 1) ∧
    (¬ s.Misses request → (s.answer request).2.builds = s.builds) := by
  cases request with
  | cached source => exact ⟨False.elim, fun _ => rfl⟩
  | compile source =>
    rw [h.misses_iff]
    simp only [Store.answer]
    obtain ⟨template, found, compiled⟩ | ⟨template, miss, -, compiled⟩ | ⟨e, miss, -, compiled⟩ :=
      s.compile_cases source
    · rw [compiled, found]
      exact ⟨fun absent => absurd absent (Option.some_ne_none _), fun _ => rfl⟩
    · rw [compiled]
      exact ⟨fun _ => rfl, fun present => absurd miss present⟩
    · rw [compiled]
      exact ⟨fun _ => rfl, fun present => absurd miss present⟩

/-- What was compiled is held, whether it was before or not. -/
theorem stores_compile (h : s.Orderly) (compiled : (s.compile source).1 = .ok template) :
    (s.compile source).2.cache.Stores source template := by
  obtain ⟨r, shows, tidy⟩ := h
  obtain ⟨held, found, outcome⟩ | ⟨fresh, -, -, outcome⟩ | ⟨e, -, -, outcome⟩ :=
    s.compile_cases source
  · rw [outcome] at compiled ⊢
    cases compiled
    exact shows.stores_get? tidy found
  · rw [outcome] at compiled ⊢
    cases compiled
    exact (Cache.shows_simulation.get? shows source).2.stores_put (tidy.get? source) _ _
  · cases (congrArg Prod.fst outcome).symm.trans compiled

/-- What was compiled is not built again at once. -/
theorem compile_compile (h : s.Orderly) (compiled : (s.compile source).1 = .ok template) :
    ((s.compile source).2.compile source).1 = .ok template ∧
    ((s.compile source).2.compile source).2.builds = (s.compile source).2.builds := by
  have next : (s.compile source).2.Orderly := h.answer (.compile source)
  rw [compile_of_hit (next.get?_eq_some_iff.mpr (h.stores_compile compiled))]
  exact ⟨rfl, rfl⟩

end Orderly

/-- The store asks its builder exactly for what its cache lacks, holds what was built, and keeps no
trace of what failed. -/
structure Frugal (s : Store) : Prop where
  /-- A failing request stores nothing. -/
  unchanged (requests : List Request) {source : String} {e : CompileError} :
    let now := s.after requests
    (now.compile source).1 = .error e →
      (∀ key template,
        (now.compile source).2.cache.Stores key template ↔ now.cache.Stores key template) ∧
      (now.compile source).2.cache.size = now.cache.size
  /-- Leaving a failing request out of a run changes no other answer or size, only the number of
  builds. -/
  erased (requests : List Request) {i : Nat} {e : CompileError} :
    (s.answers requests)[i]? = some (.compiled (.error e)) →
      s.observations (requests.eraseIdx i) = (s.observations requests).eraseIdx i ∧
      (s.after requests).builds = (s.after (requests.eraseIdx i)).builds + 1
  /-- The builder is asked once on a miss, and not otherwise. -/
  builds (requests : List Request) (request : Request) :
    let now := s.after requests
    (now.Misses request → (now.answer request).2.builds = now.builds + 1) ∧
    (¬ now.Misses request → (now.answer request).2.builds = now.builds)
  /-- A compiled text is cached, so that compiling it again builds nothing. -/
  kept (requests : List Request) {source : String} {template : Template} :
    let now := s.after requests
    (now.compile source).1 = .ok template →
      let next := (now.compile source).2
      next.cache.Stores source template ∧
      (next.compile source).1 = .ok template ∧ (next.compile source).2.builds = next.builds

theorem Orderly.frugal (h : s.Orderly) : s.Frugal where
  unchanged requests _ _ failed := (h.after requests).unchanged failed
  erased _ _ _ failed := h.erased failed
  builds requests request := (h.after requests).builds_answer request
  kept requests _ _ compiled :=
    ⟨(h.after requests).stores_compile compiled, (h.after requests).compile_compile compiled⟩

/-- A new store is frugal over either kind of cache, however small, whatever builds its templates
and however keys are hashed. A striped cache can be made for up to `2 ^ 63` callers. -/
theorem frugal_of_capacity_pos (build : String → Except CompileError Template)
    (hash : String → Nat) {capacity concurrency : Nat} (positive : 0 < capacity)
    (few : concurrency ≤ 2 ^ 63) :
    ∀ made ∈ [Cache.newBounded capacity, Cache.newStriped hash capacity concurrency],
      ∃ cache, made = .ok cache ∧ (new build cache).Frugal := by
  intro made member
  obtain ⟨cache, r, rfl, shows, tidy⟩ := Cache.exists_shows hash positive few made member
  exact ⟨cache, rfl, Orderly.frugal ⟨r, shows, tidy⟩⟩

/-- With room for one template, a text that does not compile leaves it where it is. -/
theorem frugal_of_capacity_one :
    let e := CompileError.scan ⟨0, .invalidCharacter 'b'⟩
    let build := fun source => if source = "a" then .ok default else .error e
    0 < 1 ∧ 8 ≤ 2 ^ 63 ∧ ∃ cache, Cache.newBounded 1 = .ok cache ∧
      let s := new build cache
      let requests := [.compile "a", .compile "b", .compile "a"]
      (s.answers requests)[1]? = some (.compiled (.error e)) ∧
      s.observations [.compile "a", .compile "a"] = (s.observations requests).eraseIdx 1 ∧
      (s.after requests).builds = (s.after [.compile "a", .compile "a"]).builds + 1 := by
  intro e build
  obtain ⟨cache, made, frugal⟩ := frugal_of_capacity_pos build String.length
    (show 0 < 1 by decide) (show 8 ≤ 2 ^ 63 by decide) (Cache.newBounded 1) List.mem_cons_self
  obtain ⟨_, same, holds⟩ := Cache.newBounded_holds (α := Template) (show 0 < 1 by decide)
  cases made.symm.trans same
  have coherent : (new build cache).Coherent := holds _
  have failed : (((new build cache).compile "a").2.compile "b").1 = .error e :=
    ((coherent.compile "a").2.compile "b").1.trans (by rw [compile_build]; rfl)
  have answered : ((new build cache).answers [.compile "a", .compile "b", .compile "a"])[1]? =
      some (.compiled (.error e)) := congrArg (some ∘ Answer.compiled) failed
  exact ⟨by decide, by decide, cache, made, answered, frugal.erased _ answered⟩

end ElTemplate.Store
