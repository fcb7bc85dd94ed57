import ElTemplate.Proofs.Cache.Representation
import ElTemplate.Proofs.Cache.Rounding

/-!
# Striped caches are rows of lineups

Every segment of a striped cache refines a lineup that moves what is read to the end. An operation
on a key is an operation of the key's segment and leaves the others as they are, so operations on
keys of different segments may change places.
-/

namespace ElTemplate.Cache

variable {α : Type}

namespace Striped

variable {c d : Striped α} {key other : String} {op : Operation α}

/-- An operation on a key changes the key's segment as it would change that segment alone. -/
theorem perform_snd (c : Striped α) {op : Operation α} (about : op.key? = some key) :
    (perform c op).2 =
      { c with segments := c.segments.modify (c.index key) fun s => (perform s op).2 } := by
  cases op with
  | get read =>
    cases about
    simp only [perform, Keeper.get?, get?]
    split
    · next missing =>
      have same : c.segments.modify (c.index key) (fun s => (s.get? key).2) = c.segments := by
        apply Array.ext_getElem?
        intro i
        grind
      rw [same]
    · next segment found =>
      have same : c.segments.set! (c.index key) (segment.get? key).2 =
          c.segments.modify (c.index key) fun s => (s.get? key).2 := by
        apply Array.ext_getElem?
        intro i
        rw [Array.set!_eq_setIfInBounds]
        grind
      rw [same]
  | put stored value =>
    cases about
    rfl
  | size => cases about

/-- The answer to an operation on a key is given by the key's segment. -/
theorem perform_fst_congr (about : op.key? = some key)
    (same : c.segments[c.index key]? = d.segments[d.index key]?) :
    (perform c op).1 = (perform d op).1 := by
  cases op with
  | get read =>
    cases about
    simp only [perform, Keeper.get?, get?, same]
    split <;> rfl
  | put stored value => rfl
  | size => cases about

theorem index_perform (c : Striped α) (op : Operation α) (key : String) :
    (perform c op).2.index key = c.index key := by
  cases about : op.key? with
  | none =>
    cases op with
    | size => rfl
    | _ => cases about
  | some read =>
    rw [c.perform_snd about]
    simp [index]

/-- An operation on a key touches no other segment. -/
theorem segments_perform_of_ne (about : op.key? = some key) {i : Nat}
    (elsewhere : i ≠ c.index key) : (perform c op).2.segments[i]? = c.segments[i]? := by
  rw [c.perform_snd about, Array.getElem?_modify, if_neg elsewhere.symm]

theorem commute {one two : Operation α} (first : one.key? = some key)
    (second : two.key? = some other) (apart : c.index key ≠ c.index other) :
    Commute c one two := by
  refine ⟨perform_fst_congr first ?_, perform_fst_congr second ?_, ?_⟩
  · rw [index_perform]
    exact segments_perform_of_ne second apart
  · rw [index_perform]
    exact segments_perform_of_ne first apart.symm
  · have swap : ∀ f g : Segment α → Segment α,
        (c.segments.modify (c.index key) f).modify (c.index other) g =
          (c.segments.modify (c.index other) g).modify (c.index key) f := by
      intro f g
      apply Array.ext_getElem?
      intro i
      simp only [Array.getElem?_modify]
      grind
    have indexed := index_perform c
    rw [perform_snd _ second, perform_snd (perform c two).2 first, indexed, indexed,
      perform_snd _ first, perform_snd _ second, swap]

/-- Every segment refines the lineup in its place. -/
structure Refines (c : Striped α) (r : Lineups α) : Prop where
  hash : r.hash = c.hash
  count : r.count = c.segments.size
  positive : 0 < c.segments.size
  segments : ∀ i (s : Segment α), c.segments[i]? = some s → s.Refines (r.lineup i)

namespace Refines

variable {r : Lineups α}

theorem place_eq (h : c.Refines r) (key : String) : r.place key = c.index key := by
  rw [Lineups.place, Striped.index, h.hash, h.count]

theorem exists_segment (h : c.Refines r) (key : String) :
    ∃ s, c.segments[c.index key]? = some s ∧ s.Refines (r.lineup (r.place key)) := by
  have found := Array.getElem?_eq_getElem (Nat.mod_lt (c.hash key) h.positive)
  rw [h.place_eq]
  exact ⟨_, found, h.segments _ _ found⟩

/-- Changing one segment as its lineup changes. -/
theorem update (h : c.Refines r) {i : Nat} {f : Segment α → Segment α} {l : Lineup α}
    (refines : ∀ s, c.segments[i]? = some s → (f s).Refines l) :
    Refines { c with segments := c.segments.modify i f }
      { r with lineup := Function.update r.lineup i l } := by
  refine ⟨h.hash, by simpa using h.count, by simpa using h.positive, fun j s found => ?_⟩
  rw [Array.getElem?_modify] at found
  by_cases here : i = j
  · subst here
    rw [if_pos rfl] at found
    obtain ⟨t, there, rfl⟩ := Option.map_eq_some_iff.mp found
    simpa using refines t there
  · rw [if_neg here] at found
    simpa [Function.update_of_ne (Ne.symm here)] using h.segments j s found

theorem get? (h : c.Refines r) (key : String) :
    (c.get? key).1 = (r.get? key).1 ∧ (c.get? key).2.Refines (r.get? key).2 := by
  obtain ⟨s, found, refines⟩ := h.exists_segment key
  have answer : (c.get? key).1 = (s.get? key).1 := by simp [Striped.get?, found]
  have state : (perform c (.get key)).2 =
      { c with segments := c.segments.modify (c.index key) fun s => (s.get? key).2 } :=
    c.perform_snd rfl
  change (c.get? key).2 = _ at state
  refine ⟨answer.trans (refines.get? key).1, ?_⟩
  rw [state, Lineups.get?, h.place_eq]
  refine h.update fun t there => ?_
  rw [found] at there
  cases there
  exact h.place_eq key ▸ (refines.get? key).2

theorem put (h : c.Refines r) (key : String) (value : α) :
    (c.put key value).Refines (r.put key value) := by
  obtain ⟨s, found, refines⟩ := h.exists_segment key
  rw [Striped.put, Lineups.put, h.place_eq]
  refine h.update fun t there => ?_
  rw [found] at there
  cases there
  exact h.place_eq key ▸ refines.put key value

/-- What agrees for every segment and its lineup adds up to the same total. -/
theorem total_eq (h : c.Refines r) {measure : Segment α → Nat} {shown : Lineup α → Nat}
    (agree : ∀ (s : Segment α) l, s.Refines l → measure s = shown l) :
    c.total measure = ∑ i ∈ Finset.range r.count, shown (r.lineup i) := by
  have measured : (c.segments.map measure).toList =
      (List.range r.count).map fun i => shown (r.lineup i) := by
    rw [h.count]
    apply List.ext_getElem
    · simp
    · intro i inside _
      have there := Array.getElem?_eq_getElem (show i < c.segments.size by simpa using inside)
      simpa using agree _ _ (h.segments i _ there)
  rw [total, ← Array.sum_toList, measured]
  rfl

theorem size_eq (h : c.Refines r) : c.size = r.size :=
  h.total_eq fun _ _ refines => refines.size_eq

theorem capacity_eq (h : c.Refines r) :
    c.capacity = ∑ i ∈ Finset.range r.count, (r.lineup i).capacity :=
  h.total_eq fun _ _ refines => refines.capacity.symm

theorem empty (hash : String → Nat) (capacity : Nat) {count : Nat} (positive : 0 < count) :
    (empty hash capacity count : Striped α).Refines (.empty hash capacity count) := by
  refine ⟨rfl, by simp [Striped.empty, Lineups.empty], ?_, fun i s found => ?_⟩
  · simpa [Striped.empty] using positive
  · obtain ⟨inside, rfl⟩ := Array.getElem?_eq_some_iff.mp found
    simpa [Striped.empty, Lineups.empty] using Segment.Refines.empty _ true

end Refines

theorem simulation : Simulation (Refines (α := α)) :=
  ⟨Refines.get?, Refines.put, Refines.size_eq⟩

end Striped

/-- The cache is striped and refines the row of lineups. -/
def IsStriped (c : Cache α) (r : Lineups α) : Prop :=
  ∃ stripes, c = striped stripes ∧ stripes.Refines r

theorem isStriped_simulation : Simulation (IsStriped (α := α)) :=
  Striped.simulation.wrap striped (fun _ _ => rfl) (fun _ _ _ => rfl) fun _ => rfl

theorem perform_striped (c : Striped α) (op : Operation α) :
    perform (striped c) op = ((perform c op).1, striped (perform c op).2) := by
  cases op <;> rfl

theorem commute_striped {c : Striped α} {one two : Operation α} (h : Commute c one two) :
    Commute (striped c) one two := by
  obtain ⟨first, second, state⟩ := h
  simp only [Commute, perform_striped]
  exact ⟨first, second, congrArg striped state⟩

/-- A striped cache can be made for up to `2 ^ 63` callers. It answers as a row of lineups that
share its capacity, one of which a key's hash chooses. An operation on a key touches no segment but
the chosen one, operations on keys of different segments commute, and there are never more entries
than the capacity. -/
theorem striped_refines (hash : String → Nat) (concurrency : Nat) {capacity : Nat}
    (positive : 0 < capacity) :
    ((∃ c : Cache α, newStriped hash capacity concurrency = .ok c) ↔ concurrency ≤ 2 ^ 63) ∧
    ∀ c : Cache α, newStriped hash capacity concurrency = .ok c →
      ∃ count, Striped.segmentCount? capacity concurrency = some count ∧
        (∀ ops, answers c ops = answers (Lineups.empty hash capacity count : Lineups α) ops) ∧
        ∀ ops,
          let now := after c ops
          let place := fun key => hash key % count
          now.size ≤ capacity ∧
          (∀ op key, op.key? = some key → ∀ i, i ≠ place key →
            (perform now op).2.segments[i]? = now.segments[i]?) ∧
          ∀ one two key other, one.key? = some key → two.key? = some other →
            place key ≠ place other → Commute now one two := by
  refine ⟨exists_newStriped_iff hash positive, fun c made => ?_⟩
  obtain ⟨count, counted, some, -, rfl⟩ := exists_count_of_newStriped made
  have refines : IsStriped (.striped (.empty hash capacity count))
      (.empty hash capacity count : Lineups α) :=
    ⟨_, rfl, .empty hash capacity some⟩
  refine ⟨count, counted, isStriped_simulation.answers_eq refines, ?_⟩
  intro ops now place
  obtain ⟨stripes, same, related⟩ := isStriped_simulation.after refines ops
  have within := (Lineups.within_empty (α := α) hash capacity some).after ops
  have index : ∀ key, place key = stripes.index key := by
    intro key
    rw [← related.place_eq, Lineups.place_after]
    rfl
  rw [show now = striped stripes from same]
  refine ⟨?_, ?_, ?_⟩
  · exact related.size_eq.trans_le within.size_le
  · intro op key about i elsewhere
    rw [perform_striped]
    exact Striped.segments_perform_of_ne about (index key ▸ elsewhere)
  · intro one two key other first second apart
    rw [index, index] at apart
    exact commute_striped (Striped.commute first second apart)

/-- With two segments for one entry each, a read does not save a key from the next one that is put
in its segment, and the other segment keeps its own. -/
theorem striped_refines_two : 0 < 2 ∧ ∃ c : Cache Nat, newStriped String.length 2 2 = .ok c ∧
    answers c [.put "a" 1, .put "bb" 2, .get "a", .put "c" 3, .get "a", .get "bb", .size] =
      [.stored, .stored, .found (some 1), .stored, .found none, .found (some 2), .counted 2] := by
  obtain ⟨made, refines⟩ := striped_refines (α := Nat) String.length 2 (show 0 < 2 by decide)
  obtain ⟨c, made⟩ := made.mpr (by decide)
  obtain ⟨count, counted, same, -⟩ := refines c made
  obtain rfl : 2 = count := Option.some.inj counted
  refine ⟨by decide, c, made, ?_⟩
  rw [same]
  decide

end ElTemplate.Cache
