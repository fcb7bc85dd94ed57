import ElTemplate.Cache.Basic

/-!
# Runs of a cache

What can be asked of a cache, and the answers to a list of operations in order. The same words
serve for caches, their segments and the plain lists that these are compared with, so that two of
them answer alike as soon as a relation between their states is kept by reading and writing.
-/

namespace ElTemplate.Cache

/-- States that hold values under texts. -/
class Keeper (σ : Type) (α : outParam Type) where
  get? : σ → String → Option α × σ
  put : σ → String → α → σ
  size : σ → Nat

/-- What a cache is asked for. -/
inductive Operation (α : Type) where
  | get (key : String)
  | put (key : String) (value : α)
  | size
deriving DecidableEq, Repr

/-- What a cache gives back. -/
inductive Answer (α : Type) where
  | found (value : Option α)
  | stored
  | counted (size : Nat)
deriving DecidableEq, Repr

namespace Operation

variable {α : Type}

/-- The key that an operation is about. -/
def key? : Operation α → Option String
  | get key => some key
  | put key _ => some key
  | size => none

def isGet : Operation α → Bool
  | get _ => true
  | _ => false

end Operation

section

variable {α σ τ : Type} [Keeper σ α] [Keeper τ α]

/-- One operation. -/
def perform (s : σ) : Operation α → Answer α × σ
  | .get key =>
    let (value, s) := Keeper.get? s key
    (.found value, s)
  | .put key value => (.stored, Keeper.put s key value)
  | .size => (.counted (Keeper.size s), s)

/-- The answers to operations in order. -/
def answers (s : σ) : List (Operation α) → List (Answer α)
  | [] => []
  | op :: ops => (perform s op).1 :: answers (perform s op).2 ops

/-- The state after operations in order. -/
def after (s : σ) : List (Operation α) → σ
  | [] => s
  | op :: ops => after (perform s op).2 ops

/-- Whether an operation brings in a key that is absent. -/
def inserts (s : σ) : Operation α → Bool
  | .put key _ => (Keeper.get? s key).1.isNone
  | _ => false

/-- How many of the operations bring in a key that is absent at the time. -/
def insertions (s : σ) : List (Operation α) → Nat
  | [] => 0
  | op :: ops => (if inserts s op then 1 else 0) + insertions (perform s op).2 ops

/-- The operations may change places: the answers and the state at the end stay the same. -/
def Commute (s : σ) (one two : Operation α) : Prop :=
  (perform (perform s two).2 one).1 = (perform s one).1 ∧
  (perform (perform s one).2 two).1 = (perform s two).1 ∧
  (perform (perform s one).2 two).2 = (perform (perform s two).2 one).2

theorem after_append (s : σ) (first second : List (Operation α)) :
    after s (first ++ second) = after (after s first) second := by
  induction first generalizing s with
  | nil => rfl
  | cons op ops ih => exact ih _

theorem insertions_cons (s : σ) (op : Operation α) (ops : List (Operation α)) :
    insertions s (op :: ops) = insertions s [op] + insertions (perform s op).2 ops := by
  simp [insertions]

theorem insertions_append (s : σ) (first second : List (Operation α)) :
    insertions s (first ++ second) = insertions s first + insertions (after s first) second := by
  induction first generalizing s with
  | nil => simp [insertions, after]
  | cons op ops ih => simp only [List.cons_append, insertions, after, ih]; omega

/-- Related states answer every operation alike and stay related. -/
structure Simulation (R : σ → τ → Prop) : Prop where
  get? : ∀ {s t}, R s t → ∀ key, (Keeper.get? s key).1 = (Keeper.get? t key).1 ∧
    R (Keeper.get? s key).2 (Keeper.get? t key).2
  put : ∀ {s t}, R s t → ∀ key value, R (Keeper.put s key value) (Keeper.put t key value)
  size : ∀ {s t}, R s t → Keeper.size s = Keeper.size t

namespace Simulation

variable {R : σ → τ → Prop} {s : σ} {t : τ}

theorem perform (h : Simulation R) (related : R s t) (op : Operation α) :
    (Cache.perform s op).1 = (Cache.perform t op).1 ∧
      R (Cache.perform s op).2 (Cache.perform t op).2 := by
  cases op with
  | get key => exact ⟨congrArg Answer.found (h.get? related key).1, (h.get? related key).2⟩
  | put key value => exact ⟨rfl, h.put related key value⟩
  | size => exact ⟨congrArg Answer.counted (h.size related), related⟩

theorem after (h : Simulation R) (related : R s t) (ops : List (Operation α)) :
    R (after s ops) (Cache.after t ops) := by
  induction ops generalizing s t with
  | nil => exact related
  | cons op ops ih => exact ih (h.perform related op).2

theorem answers_eq (h : Simulation R) (related : R s t) (ops : List (Operation α)) :
    answers s ops = answers t ops := by
  induction ops generalizing s t with
  | nil => rfl
  | cons op ops ih =>
    obtain ⟨same, next⟩ := h.perform related op
    simp only [answers, same, ih next]

theorem inserts_eq (h : Simulation R) (related : R s t) (op : Operation α) :
    inserts s op = inserts t op := by
  cases op with
  | put key value => exact congrArg Option.isNone (h.get? related key).1
  | get key => rfl
  | size => rfl

theorem insertions_eq (h : Simulation R) (related : R s t) (ops : List (Operation α)) :
    insertions s ops = insertions t ops := by
  induction ops generalizing s t with
  | nil => rfl
  | cons op ops ih =>
    simp only [insertions, h.inserts_eq related op, ih (h.perform related op).2]

/-- States that stand for others in every operation answer as these do. -/
theorem wrap {υ : Type} [Keeper υ α] (h : Simulation R) (wrapper : σ → υ)
    (get? : ∀ s key, Keeper.get? (wrapper s) key =
      ((Keeper.get? s key).1, wrapper (Keeper.get? s key).2))
    (put : ∀ s key value, Keeper.put (wrapper s) key value = wrapper (Keeper.put s key value))
    (size : ∀ s, Keeper.size (wrapper s) = Keeper.size s) :
    Simulation fun u t => ∃ s, u = wrapper s ∧ R s t where
  get? := by
    rintro _ t ⟨s, rfl, related⟩ key
    obtain ⟨same, next⟩ := h.get? related key
    rw [get?]
    exact ⟨same, _, rfl, next⟩
  put := by
    rintro _ t ⟨s, rfl, related⟩ key value
    exact ⟨_, put s key value, h.put related key value⟩
  size := by
    rintro _ t ⟨s, rfl, related⟩
    exact (size s).trans (h.size related)

end Simulation

end

variable {α : Type}

/-- The segments of a cache, of which there may be only one. -/
def segments : Cache α → Array (Segment α)
  | bounded segment => #[segment]
  | striped stripes => stripes.segments

instance : Keeper (Segment α) α := ⟨Segment.get?, Segment.put, Segment.size⟩

instance : Keeper (Striped α) α := ⟨Striped.get?, Striped.put, Striped.size⟩

instance : Keeper (Cache α) α := ⟨Cache.get?, Cache.put, Cache.size⟩

end ElTemplate.Cache
