import Mathlib.Data.List.Forall2
import ElTemplate.Cache.Store
import ElTemplate.Proofs.Cache.Entries

/-!
# Stores are transparent

A store answers as if it had no cache: what it compiles is what its builder gives, and what it finds
in the cache is what the builder would give for that text. No history of earlier requests shows
in an answer, whether they were kept, evicted, or failed to compile.
-/

namespace ElTemplate.Store

/-- What a store is asked for. -/
inductive Request where
  /-- The template of a text, built if it is not cached. -/
  | compile (source : String)
  /-- The template of a text if it is cached. -/
  | cached (source : String)
deriving DecidableEq, Repr

/-- What a store gives back. -/
inductive Answer where
  | compiled (result : Except CompileError Template)
  | cached (found : Option Template)

/-- One request. -/
def answer (s : Store) : Request → Answer × Store
  | .compile source =>
    let (result, s) := s.compile source
    (.compiled result, s)
  | .cached source =>
    let (found, s) := s.cached? source
    (.cached found, s)

/-- The answers to requests in order. -/
def answers (s : Store) : List Request → List Answer
  | [] => []
  | request :: rest =>
    let (answer, s) := s.answer request
    answer :: s.answers rest

/-- Whether an answer is the one that a builder without a cache would give. A request for what is
cached may also find nothing. -/
def Request.IsAnswered (build : String → Except CompileError Template) :
    Request → Answer → Prop
  | compile source, .compiled result => result = build source
  | cached source, .cached (some template) => build source = .ok template
  | cached _, .cached none => True
  | _, _ => False

/-- Every run of requests is answered as by the builder alone. -/
def Transparent (s : Store) : Prop :=
  ∀ requests, List.Forall₂ (Request.IsAnswered s.build) requests (s.answers requests)

/-- The cached templates are those that the builder gives for their keys. -/
def Coherent (s : Store) : Prop :=
  s.cache.Holds fun source template => s.build source = .ok template

variable {s : Store}

@[simp] theorem compile_build (s : Store) (source : String) :
    (s.compile source).2.build = s.build := by
  simp only [compile]
  split
  · rfl
  · split <;> rfl

@[simp] theorem answer_build (s : Store) (request : Request) :
    (s.answer request).2.build = s.build := by
  cases request with
  | compile source => exact s.compile_build source
  | cached source => rfl

/-- A hit gives what the builder would, a miss asks it, and only what it gives is kept. -/
theorem Coherent.compile (h : s.Coherent) (source : String) :
    (s.compile source).1 = s.build source ∧ (s.compile source).2.Coherent := by
  have kept := Cache.Holds.get? h source
  simp only [Store.compile]
  split
  · next template cache hit =>
    have found := Cache.Holds.of_get? h (congrArg Prod.fst hit)
    rw [hit] at kept
    exact ⟨found.symm, kept⟩
  · next cache miss =>
    rw [miss] at kept
    split
    · next template built => exact ⟨built.symm, Cache.Holds.put kept built⟩
    · next e failed => exact ⟨failed.symm, kept⟩

theorem Coherent.answer (h : s.Coherent) (request : Request) :
    request.IsAnswered s.build (s.answer request).1 ∧ (s.answer request).2.Coherent := by
  cases request with
  | compile source => exact h.compile source
  | cached source =>
    refine ⟨?_, Cache.Holds.get? h source⟩
    cases found : (s.cache.get? source).1 with
    | none => simp [Store.answer, cached?, found, Request.IsAnswered]
    | some template =>
      have built := Cache.Holds.of_get? h found
      simpa [Store.answer, cached?, found, Request.IsAnswered] using built

/-- Coherence holds before every request of a run, so it answers them all. -/
theorem Coherent.transparent (h : s.Coherent) : s.Transparent := by
  intro requests
  induction requests generalizing s with
  | nil => exact .nil
  | cons request rest ih =>
    obtain ⟨answered, next⟩ := h.answer request
    have further := ih next
    rw [answer_build] at further
    exact .cons answered further

section Made

variable {hash : String → Nat} {settings : Settings}

/-- The store of settings with room has a new cache of the kind that suits the callers. -/
theorem ofSettings_of_pos (room : 0 < settings.cacheCapacity) : ofSettings hash settings =
    (if settings.concurrency ≤ 1 then Cache.newBounded settings.cacheCapacity
      else Cache.newStriped hash settings.cacheCapacity settings.concurrency).map
        (new (Template.compile (.ofList settings.features))) := by
  have valid : settings.validate = .ok settings := if_neg (Nat.ne_of_gt room)
  have passed : settings.validate.mapError Cache.Failure.refused = .ok settings := by
    rw [valid]
    rfl
  rw [ofSettings, passed]
  by_cases few : settings.concurrency ≤ 1
  · rw [if_pos few]
    simp only [bind, Except.bind, few, if_true]
    cases Cache.newBounded settings.cacheCapacity <;> rfl
  · rw [if_neg few]
    simp only [bind, Except.bind, few, if_false]
    cases Cache.newStriped hash settings.cacheCapacity settings.concurrency <;> rfl

/-- The store of settings builds by their features, and has nothing in its cache but what it would
build. -/
theorem coherent_of_ofSettings (room : 0 < settings.cacheCapacity)
    (made : ofSettings hash settings = .ok s) :
    s.build = Template.compile (.ofList settings.features) ∧ s.Coherent := by
  rw [ofSettings_of_pos room] at made
  split at made
  · obtain ⟨cache, single, holds⟩ := Cache.newBounded_holds (α := Template) room
    rw [single] at made
    cases made
    exact ⟨rfl, holds _⟩
  · cases striped : (Cache.newStriped hash settings.cacheCapacity settings.concurrency :
        Except Cache.Failure (Cache Template)) with
    | error e =>
      rw [striped] at made
      cases made
    | ok cache =>
      rw [striped] at made
      cases made
      exact ⟨rfl, Cache.newStriped_holds striped _⟩

/-- Settings with room have a store for up to `2 ^ 63` callers. -/
theorem exists_ofSettings_iff (hash : String → Nat) (room : 0 < settings.cacheCapacity) :
    (∃ s, ofSettings hash settings = .ok s) ↔ settings.concurrency ≤ 2 ^ 63 := by
  rw [ofSettings_of_pos room]
  split
  · next few =>
    obtain ⟨cache, single, -⟩ := Cache.newBounded_holds (α := Template) room
    rw [single]
    exact iff_of_true ⟨_, rfl⟩ (few.trans Nat.one_le_two_pow)
  · rw [← Cache.exists_newStriped_iff (α := Template) hash room]
    cases Cache.newStriped hash settings.cacheCapacity settings.concurrency <;>
      simp [Except.map]

/-- For more callers the program stops. -/
theorem ofSettings_of_lt (room : 0 < settings.cacheCapacity)
    (many : 2 ^ 63 < settings.concurrency) : ofSettings hash settings = .error .overflow := by
  have striped : ¬ settings.concurrency ≤ 1 :=
    Nat.not_le.mpr (Nat.lt_of_le_of_lt Nat.one_le_two_pow many)
  rw [ofSettings_of_pos room, if_neg striped, Cache.newStriped_of_lt room many]
  rfl

end Made

/-- A store never lets its cache show. This holds of every new store over either kind of cache,
whatever builds its templates and however keys are hashed, and of every store that settings
describe. A striped cache, and so a store for several callers, can be made for up to `2 ^ 63` of
them. -/
theorem transparent_of_capacity_pos (hash : String → Nat) (concurrency : Nat)
    (features : List Feature) {capacity : Nat} (positive : 0 < capacity) :
    (∀ build, ∃ cache, Cache.newBounded capacity = .ok cache ∧ (new build cache).Transparent) ∧
    ((∃ cache : Cache Template, Cache.newStriped hash capacity concurrency = .ok cache) ↔
      concurrency ≤ 2 ^ 63) ∧
    (∀ build cache, Cache.newStriped hash capacity concurrency = .ok cache →
      (new build cache).Transparent) ∧
    ((∃ s, ofSettings hash ⟨capacity, concurrency, features⟩ = .ok s) ↔ concurrency ≤ 2 ^ 63) ∧
    ∀ s, ofSettings hash ⟨capacity, concurrency, features⟩ = .ok s →
      s.build = Template.compile (.ofList features) ∧ s.Transparent := by
  obtain ⟨single, made, holds⟩ := Cache.newBounded_holds (α := Template) positive
  refine ⟨fun build => ⟨single, made, Coherent.transparent (holds _)⟩,
    Cache.exists_newStriped_iff hash positive, fun build cache made => ?_,
    exists_ofSettings_iff hash positive, fun s made => ?_⟩
  · exact Coherent.transparent (Cache.newStriped_holds made _)
  · obtain ⟨built, coherent⟩ := coherent_of_ofSettings positive made
    exact ⟨built, coherent.transparent⟩

/-- Eight callers share room for one template. -/
theorem transparent_of_capacity_one :
    0 < 1 ∧ ∃ s, ofSettings String.length ⟨1, 8, [.varargs]⟩ = .ok s ∧
      s.build = Template.compile ⟨false, true⟩ ∧ s.Transparent := by
  obtain ⟨-, -, -, exist, transparent⟩ :=
    transparent_of_capacity_pos String.length 8 [.varargs] (show 0 < 1 by decide)
  obtain ⟨s, made⟩ := exist.mpr (by decide)
  exact ⟨by decide, s, made, transparent s made⟩

end ElTemplate.Store
