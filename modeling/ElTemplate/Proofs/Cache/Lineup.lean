import Mathlib.Algebra.BigOperators.Group.Finset.Piecewise
import Mathlib.Algebra.Group.Action.Defs
import Mathlib.Algebra.Order.BigOperators.Group.Finset
import ElTemplate.Proofs.Cache.Operations

/-!
# Lineups

A lineup is what a cache segment is meant to be: a list of keys with their values, the one that will
be dropped next in front. Nothing in it is stamped. A striped cache is meant to be a row of
lineups, of which a key concerns only the one that its hash chooses.
-/

namespace ElTemplate.Cache

/-- Entries in the order in which they are dropped. -/
structure Lineup (α : Type) where
  capacity : Nat
  /-- Whether what is read goes back to the end. -/
  refreshOnRead : Bool
  entries : List (String × α)

namespace Lineup

variable {α : Type}

/-- A lineup without entries. -/
def empty (capacity : Nat) (refreshOnRead : Bool) : Lineup α :=
  ⟨capacity, refreshOnRead, []⟩

/-- The value of a key. A key that is present goes to the end if reading refreshes; nothing else
changes. -/
def get? (l : Lineup α) (key : String) : Option α × Lineup α :=
  match l.entries.lookup key with
  | none => (none, l)
  | some value =>
    if l.refreshOnRead then
      (some value, { l with entries := l.entries.filter (·.1 ≠ key) ++ [(key, value)] })
    else (some value, l)

/-- Replace the value of a key in its place, or put the key at the end and drop the one in front if
there are too many. -/
def put (l : Lineup α) (key : String) (value : α) : Lineup α :=
  match l.entries.lookup key with
  | some _ => { l with entries := l.entries.map fun e => if e.1 = key then (key, value) else e }
  | none =>
    let entries := l.entries ++ [(key, value)]
    { l with entries := if l.capacity < entries.length then entries.tail else entries }

def size (l : Lineup α) : Nat :=
  l.entries.length

instance : Keeper (Lineup α) α := ⟨get?, put, size⟩

/-- No entry of the list has the key. -/
def Lacks (entries : List (String × α)) (key : String) : Prop :=
  ∀ e ∈ entries, e.1 ≠ key

variable {l : Lineup α} {key : String} {value : α} {before behind : List (String × α)}

theorem lookup_eq_none_iff {entries : List (String × α)} :
    entries.lookup key = none ↔ Lacks entries key := by
  simp only [List.lookup_eq_none_iff, Lacks, bne_iff_ne, ne_comm]

theorem lookup_of_split (lacks : Lacks before key) :
    (before ++ (key, value) :: behind).lookup key = some value := by
  rw [List.lookup_append, lookup_eq_none_iff.mpr lacks]
  simp

theorem filter_of_lacks (lacks : Lacks before key) : before.filter (·.1 ≠ key) = before :=
  List.filter_eq_self.mpr fun e mem => decide_eq_true (lacks e mem)

theorem map_of_lacks (lacks : Lacks before key) (value : α) :
    before.map (fun e => if e.1 = key then (key, value) else e) = before := by
  rw [List.map_congr_left fun e mem => if_neg (lacks e mem), List.map_id']

theorem get?_of_lacks (lacks : Lacks l.entries key) : l.get? key = (none, l) := by
  rw [get?, lookup_eq_none_iff.mpr lacks]

theorem get?_of_split (split : l.entries = before ++ (key, value) :: behind)
    (ahead : Lacks before key) (beyond : Lacks behind key) :
    l.get? key = (some value,
      if l.refreshOnRead then { l with entries := before ++ behind ++ [(key, value)] } else l) := by
  have kept : l.entries.filter (·.1 ≠ key) = before ++ behind := by
    rw [split, List.filter_append, filter_of_lacks ahead, List.filter_cons_of_neg (by simp),
      filter_of_lacks beyond]
  have found : l.entries.lookup key = some value := split ▸ lookup_of_split ahead
  simp only [get?, found, kept]
  split <;> rfl

theorem put_of_lacks (lacks : Lacks l.entries key) (value : α) :
    l.put key value = { l with
      entries := if l.capacity < l.entries.length + 1 then (l.entries ++ [(key, value)]).tail
        else l.entries ++ [(key, value)] } := by
  simp [put, lookup_eq_none_iff.mpr lacks]

theorem put_of_split (split : l.entries = before ++ (key, value) :: behind)
    (ahead : Lacks before key) (beyond : Lacks behind key) (other : α) :
    l.put key other = { l with entries := before ++ (key, other) :: behind } := by
  have found : l.entries.lookup key = some value := split ▸ lookup_of_split ahead
  simp only [put, found]
  rw [split, List.map_append, List.map_cons, map_of_lacks ahead, map_of_lacks beyond, if_pos rfl]

@[simp] theorem empty_capacity (capacity : Nat) (refreshOnRead : Bool) :
    (empty capacity refreshOnRead : Lineup α).capacity = capacity :=
  rfl

@[simp] theorem get?_capacity (l : Lineup α) (key : String) :
    (l.get? key).2.capacity = l.capacity := by
  rw [get?]
  split
  · rfl
  · split <;> rfl

@[simp] theorem put_capacity (l : Lineup α) (key : String) (value : α) :
    (l.put key value).capacity = l.capacity := by
  rw [put]
  split <;> rfl

@[simp] theorem put_refreshOnRead (l : Lineup α) (key : String) (value : α) :
    (l.put key value).refreshOnRead = l.refreshOnRead := by
  rw [put]
  split <;> rfl

/-- What is read moves, so the lineup does not grow. -/
theorem size_get?_le (l : Lineup α) (key : String) : (l.get? key).2.size ≤ l.size := by
  rw [get?]
  split
  · exact Nat.le_refl _
  · next value found =>
    split
    · have present : ∃ e ∈ l.entries, e.1 = key := by
        by_contra none
        have lacks : Lacks l.entries key := fun e mem same => none ⟨e, mem, same⟩
        rw [lookup_eq_none_iff.mpr lacks] at found
        cases found
      obtain ⟨e, mem, same⟩ := present
      have fewer : (l.entries.filter (·.1 ≠ key)).length < l.entries.length :=
        List.length_filter_lt_length_iff_exists.mpr ⟨e, mem, by simp [same]⟩
      simp only [size, List.length_append, List.length_singleton]
      omega
    · exact Nat.le_refl _

/-- What comes in makes room for itself. -/
theorem size_put_le (bounded : l.size ≤ l.capacity) (key : String) (value : α) :
    (l.put key value).size ≤ l.capacity := by
  rw [put]
  split
  · simpa [size] using bounded
  · simp only [size] at bounded ⊢
    split
    · simpa using bounded
    · next fits => exact Nat.not_lt.mp fits

end Lineup

/-- A row of lineups, and the hash that chooses among them. -/
structure Lineups (α : Type) where
  count : Nat
  hash : String → Nat
  lineup : Nat → Lineup α

namespace Lineups

variable {α : Type}

/-- So many lineups without entries, which share the capacity and refresh on reading. -/
def empty (hash : String → Nat) (capacity count : Nat) : Lineups α :=
  ⟨count, hash, fun i => .empty (Striped.share capacity count i) true⟩

/-- The place of a key's lineup in the row. -/
def place (r : Lineups α) (key : String) : Nat :=
  r.hash key % r.count

def get? (r : Lineups α) (key : String) : Option α × Lineups α :=
  let read := (r.lineup (r.place key)).get? key
  (read.1, { r with lineup := Function.update r.lineup (r.place key) read.2 })

def put (r : Lineups α) (key : String) (value : α) : Lineups α :=
  let l := (r.lineup (r.place key)).put key value
  { r with lineup := Function.update r.lineup (r.place key) l }

def size (r : Lineups α) : Nat :=
  ∑ i ∈ Finset.range r.count, (r.lineup i).size

instance : Keeper (Lineups α) α := ⟨get?, put, size⟩

/-- No lineup is longer than its share of the capacity. -/
structure Within (r : Lineups α) (capacity : Nat) : Prop where
  shares : ∑ i ∈ Finset.range r.count, (r.lineup i).capacity = capacity
  bounded : ∀ i, (r.lineup i).size ≤ (r.lineup i).capacity

theorem sum_share (capacity : Nat) {count : Nat} (positive : 0 < count) :
    ∑ i ∈ Finset.range count, Striped.share capacity count i = capacity := by
  have extra : (Finset.range count).filter (· < capacity % count) =
      Finset.range (capacity % count) := by
    ext i
    simp only [Finset.mem_filter, Finset.mem_range]
    have := Nat.mod_lt capacity positive
    omega
  calc ∑ i ∈ Finset.range count, Striped.share capacity count i
      = count * (capacity / count) + ((Finset.range count).filter (· < capacity % count)).card := by
        simp only [Striped.share, Finset.sum_add_distrib, Finset.sum_const, Finset.card_range,
          Finset.card_filter, smul_eq_mul]
    _ = count * (capacity / count) + capacity % count := by rw [extra, Finset.card_range]
    _ = capacity := Nat.div_add_mod capacity count

variable {r : Lineups α} {capacity : Nat}

/-- Putting a lineup of the same capacity in the place of another. -/
theorem Within.update (h : r.Within capacity) {i : Nat} {l : Lineup α}
    (same : l.capacity = (r.lineup i).capacity) (bounded : l.size ≤ l.capacity) :
    ({ r with lineup := Function.update r.lineup i l } : Lineups α).Within capacity := by
  have kept : ∀ j, (Function.update r.lineup i l j).capacity = (r.lineup j).capacity := by
    intro j
    by_cases here : j = i
    · subst here
      simpa using same
    · simp [here]
  refine ⟨?_, fun j => ?_⟩
  · simpa only [kept] using h.shares
  · by_cases here : j = i
    · subst here
      simpa using bounded
    · simpa [here] using h.bounded j

theorem Within.get? (h : r.Within capacity) (key : String) : (r.get? key).2.Within capacity := by
  have shorter := (r.lineup (r.place key)).size_get?_le key
  have same := (r.lineup (r.place key)).get?_capacity key
  exact h.update same (same ▸ shorter.trans (h.bounded _))

theorem Within.put (h : r.Within capacity) (key : String) (value : α) :
    (r.put key value).Within capacity := by
  have bounded := Lineup.size_put_le (h.bounded (r.place key)) key value
  have same := (r.lineup (r.place key)).put_capacity key value
  exact h.update same (same ▸ bounded)

theorem within_empty (hash : String → Nat) (capacity : Nat) {count : Nat} (positive : 0 < count) :
    (empty hash capacity count : Lineups α).Within capacity :=
  ⟨sum_share capacity positive, fun _ => Nat.zero_le _⟩

/-- A row of lineups never holds more than its capacity. -/
theorem Within.size_le (h : r.Within capacity) : r.size ≤ capacity := by
  calc r.size ≤ ∑ i ∈ Finset.range r.count, (r.lineup i).capacity :=
        Finset.sum_le_sum fun i _ => h.bounded i
    _ = capacity := h.shares

@[simp] theorem place_after (r : Lineups α) (ops : List (Operation α)) (key : String) :
    (after r ops).place key = r.place key := by
  induction ops generalizing r with
  | nil => rfl
  | cons op ops ih => cases op <;> exact ih _

theorem Within.after (h : r.Within capacity) (ops : List (Operation α)) :
    (after r ops).Within capacity := by
  induction ops generalizing r with
  | nil => exact h
  | cons op ops ih =>
    cases op with
    | get key => exact ih (h.get? key)
    | put key value => exact ih (h.put key value)
    | size => exact ih h

end Lineups

end ElTemplate.Cache
