import ElTemplate.Proofs.Cache.Recency

/-!
# What a cache holds

Either kind of cache is a row of lineups; that of a bounded cache has only one. The maps of the
segments hold what is listed in the lineups, and a key is listed in its own lineup or nowhere. So a
read finds exactly what the cache holds, a read that finds nothing changes nothing, and what was
just put is held, since every lineup has room for an entry.
-/

namespace ElTemplate.Cache

variable {α : Type} {key : String} {value : α}

/-- Some segment of the cache holds the value under the key. -/
def Stores (c : Cache α) (key : String) (value : α) : Prop :=
  ∃ segment ∈ c.segments, ∃ entry, segment.entries[key]? = some entry ∧ entry.value = value

namespace Lineup

variable {l : Lineup α}

theorem get?_fst (l : Lineup α) (key : String) : (l.get? key).1 = l.entries.lookup key := by
  rw [get?]
  split
  · next absent => exact absent.symm
  · next value found => split <;> exact found.symm

/-- The first entry of a key splits the list. -/
theorem exists_split (found : l.entries.lookup key = some value) :
    ∃ before behind, l.entries = before ++ (key, value) :: behind ∧ Lacks before key := by
  obtain ⟨before, behind, split, ahead⟩ := List.lookup_eq_some_iff.mp found
  refine ⟨before, behind, split, fun e mem same => ?_⟩
  simpa [same] using ahead e mem

theorem mem_of_lookup (found : l.entries.lookup key = some value) : (key, value) ∈ l.entries := by
  obtain ⟨before, behind, split, -⟩ := exists_split found
  rw [split]
  exact List.mem_append_right _ List.mem_cons_self

/-- What is read was there before. -/
theorem mem_of_mem_get? {e : String × α} (mem : e ∈ (l.get? key).2.entries) : e ∈ l.entries := by
  rw [get?] at mem
  split at mem
  · exact mem
  · next value found =>
    split at mem
    · rcases List.mem_append.mp mem with old | moved
      · exact (List.mem_filter.mp old).1
      · cases List.mem_singleton.mp moved
        exact mem_of_lookup found
    · exact mem

/-- What a read finds stays. -/
theorem mem_get? (found : (l.get? key).1 = some value) : (key, value) ∈ (l.get? key).2.entries := by
  have listed : l.entries.lookup key = some value := (l.get?_fst key).symm.trans found
  simp only [get?, listed]
  split
  · exact List.mem_append_right _ (List.mem_singleton_self _)
  · exact mem_of_lookup listed

/-- Only the key that is put may come in. -/
theorem mem_of_mem_put {e : String × α} (mem : e ∈ (l.put key value).entries) :
    e.1 = key ∨ e ∈ l.entries := by
  rw [put] at mem
  split at mem
  · obtain ⟨old, there, rfl⟩ := List.mem_map.mp mem
    split
    · exact .inl rfl
    · exact .inr there
  · have mem : e ∈ l.entries ++ [(key, value)] := by
      simp only at mem
      split at mem
      · exact List.mem_of_mem_tail mem
      · exact mem
    rcases List.mem_append.mp mem with old | new
    · exact .inr old
    · exact .inl (congrArg Prod.fst (List.mem_singleton.mp new))

/-- What is put is found next, if there is room for an entry at all. -/
theorem lookup_put (room : 0 < l.capacity) (key : String) (value : α) :
    (l.put key value).entries.lookup key = some value := by
  cases found : l.entries.lookup key with
  | some old =>
    obtain ⟨before, behind, split, ahead⟩ := exists_split found
    simp only [put, found]
    rw [split, List.map_append, List.map_cons, if_pos rfl, map_of_lacks ahead]
    exact lookup_of_split ahead
  | none =>
    have absent := lookup_eq_none_iff.mp found
    rw [put_of_lacks absent]
    by_cases full : l.capacity < l.entries.length + 1
    · -- What is dropped is an older entry, as there is one.
      obtain ⟨first, rest, split⟩ := List.exists_cons_of_length_pos (l := l.entries) (by omega)
      have lacks : Lacks rest key := fun e mem => absent e (split ▸ List.mem_cons_of_mem _ mem)
      rw [if_pos full, split, List.cons_append, List.tail_cons]
      exact lookup_of_split lacks
    · rw [if_neg full]
      exact lookup_of_split absent

end Lineup

namespace Lineups

variable {r : Lineups α} {capacity : Nat}

/-- Reading a key reads its lineup. -/
theorem lineup_get? (r : Lineups α) (key : String) :
    (r.get? key).2.lineup (r.place key) = ((r.lineup (r.place key)).get? key).2 :=
  Function.update_self ..

/-- Putting a key puts it in its lineup. -/
theorem lineup_put (r : Lineups α) (key : String) (value : α) :
    (r.put key value).lineup (r.place key) = (r.lineup (r.place key)).put key value :=
  Function.update_self ..

/-- A single lineup without entries, which keeps the order of insertion. -/
def single (capacity : Nat) : Lineups α :=
  ⟨1, fun _ => 0, fun _ => .empty capacity false⟩

/-- A key is listed in its own lineup or nowhere, and there is room for it. -/
structure Tidy (r : Lineups α) : Prop where
  placed : ∀ i, ∀ e ∈ (r.lineup i).entries, r.place e.1 = i
  roomy : ∀ key, 0 < (r.lineup (r.place key)).capacity

/-- Putting a lineup with the same capacity and keys of the place in the place of another. -/
theorem Tidy.update (h : r.Tidy) {i : Nat} {l : Lineup α}
    (same : l.capacity = (r.lineup i).capacity) (placed : ∀ e ∈ l.entries, r.place e.1 = i) :
    ({ r with lineup := Function.update r.lineup i l } : Lineups α).Tidy := by
  constructor
  case placed =>
    intro j e (mem : e ∈ (Function.update r.lineup i l j).entries)
    by_cases here : j = i
    · rw [here, Function.update_self] at mem
      exact (placed e mem).trans here.symm
    · rw [Function.update_of_ne here] at mem
      exact h.placed j e mem
  case roomy =>
    intro key
    change 0 < (Function.update r.lineup i l (r.place key)).capacity
    by_cases here : r.place key = i
    · rw [here, Function.update_self, same, ← here]
      exact h.roomy key
    · rw [Function.update_of_ne here]
      exact h.roomy key

theorem Tidy.get? (h : r.Tidy) (key : String) : (r.get? key).2.Tidy :=
  h.update (Lineup.get?_capacity _ key) fun e mem => h.placed _ e (Lineup.mem_of_mem_get? mem)

theorem Tidy.put (h : r.Tidy) (key : String) (value : α) : (r.put key value).Tidy := by
  refine h.update (Lineup.put_capacity _ key value) fun e mem => ?_
  rcases Lineup.mem_of_mem_put mem with rfl | old
  · rfl
  · exact h.placed _ e old

theorem Tidy.after (h : r.Tidy) (ops : List (Operation α)) : (after r ops).Tidy := by
  induction ops generalizing r with
  | nil => exact h
  | cons op ops ih =>
    cases op with
    | get key => exact ih (h.get? key)
    | put key value => exact ih (h.put key value)
    | size => exact ih h

theorem tidy_single (positive : 0 < capacity) : (single capacity : Lineups α).Tidy :=
  ⟨fun _ _ mem => absurd mem List.not_mem_nil, fun _ => positive⟩

/-- Every share of a capacity is positive, as there are no more shares than places. -/
theorem share_pos {count : Nat} (positive : 0 < count) (fits : count ≤ capacity) (i : Nat) :
    0 < Striped.share capacity count i :=
  Nat.add_pos_left (Nat.div_pos fits positive) _

theorem tidy_empty (hash : String → Nat) {count : Nat} (positive : 0 < count)
    (fits : count ≤ capacity) : (empty hash capacity count : Lineups α).Tidy :=
  ⟨fun _ _ mem => absurd mem List.not_mem_nil, fun _ => share_pos positive fits _⟩

/-- A read that finds nothing leaves the lineups as they are. -/
theorem get?_of_none (absent : (r.get? key).1 = none) : r.get? key = (none, r) := by
  have lacks := Lineup.lookup_eq_none_iff.mp ((Lineup.get?_fst _ key).symm.trans absent)
  rw [get?, Lineup.get?_of_lacks lacks, Function.update_eq_self]

end Lineups

namespace Segment.Refines

variable {s : Segment α} {l : Lineup α}

/-- The segment holds what is listed. -/
theorem mem_iff (h : s.Refines l) :
    (key, value) ∈ l.entries ↔ ∃ entry, s.entries[key]? = some entry ∧ entry.value = value := by
  obtain ⟨line, represents, shown⟩ := h.line
  simp only [shown, List.mem_map, represents.entries]
  constructor
  · rintro ⟨⟨_, entry⟩, mem, same⟩
    cases same
    exact ⟨entry, mem, rfl⟩
  · rintro ⟨entry, mem, rfl⟩
    exact ⟨(key, entry), mem, rfl⟩

/-- A key is listed once. -/
theorem lookup_eq_some_iff (h : s.Refines l) :
    l.entries.lookup key = some value ↔ (key, value) ∈ l.entries := by
  refine ⟨Lineup.mem_of_lookup, fun mem => ?_⟩
  cases found : l.entries.lookup key with
  | none => exact absurd rfl (Lineup.lookup_eq_none_iff.mp found _ mem)
  | some other =>
    obtain ⟨entry, held, rfl⟩ := h.mem_iff.mp mem
    obtain ⟨entry', held', rfl⟩ := h.mem_iff.mp (Lineup.mem_of_lookup found)
    rw [Option.some.inj (held.symm.trans held')]

end Segment.Refines

/-- The segments of the cache refine the lineups; a bounded cache has one of them. -/
def Shows (c : Cache α) (r : Lineups α) : Prop :=
  match c with
  | bounded segment => r.count = 1 ∧ segment.Refines (r.lineup 0)
  | striped stripes => stripes.Refines r

variable {c : Cache α} {r : Lineups α}

/-- In a row of one every key has the same place. -/
theorem place_of_single (single : r.count = 1) (key : String) : r.place key = 0 := by
  rw [Lineups.place, single, Nat.mod_one]

theorem shows_simulation : Simulation (Shows (α := α)) where
  get? := by
    rintro (segment | stripes) r h key
    · obtain ⟨single, refines⟩ := h
      have place := place_of_single single key
      obtain ⟨same, next⟩ := (place.symm ▸ refines).get? key
      exact ⟨same, single, by rwa [← r.lineup_get?, place] at next⟩
    · exact Striped.Refines.get? h key
  put := by
    rintro (segment | stripes) r h key value
    · obtain ⟨single, refines⟩ := h
      have place := place_of_single single key
      have next := (place.symm ▸ refines).put key value
      exact ⟨single, by rwa [← r.lineup_put, place] at next⟩
    · exact Striped.Refines.put h key value
  size := by
    rintro (segment | stripes) r h
    · obtain ⟨single, refines⟩ := h
      simp only [Keeper.size, Lineups.size, single, Finset.sum_range_one]
      exact refines.size_eq
    · exact Striped.Refines.size_eq h

namespace Shows

/-- Every segment refines a lineup. -/
theorem exists_place (h : c.Shows r) {segment : Segment α} (mem : segment ∈ c.segments) :
    ∃ i, segment.Refines (r.lineup i) := by
  cases c with
  | bounded single =>
    cases Array.mem_singleton.mp mem
    exact ⟨0, h.2⟩
  | striped stripes =>
    obtain ⟨i, found⟩ := Array.mem_iff_getElem?.mp mem
    exact ⟨i, h.segments i segment found⟩

/-- The lineup of a key is refined by a segment. -/
theorem exists_segment (h : c.Shows r) (key : String) :
    ∃ segment ∈ c.segments, segment.Refines (r.lineup (r.place key)) := by
  cases c with
  | bounded single => exact ⟨single, Array.mem_singleton.mpr rfl, place_of_single h.1 key ▸ h.2⟩
  | striped stripes =>
    obtain ⟨segment, found, refines⟩ := Striped.Refines.exists_segment h key
    exact ⟨segment, Array.mem_of_getElem? found, refines⟩

/-- The cache holds what is listed in the lineup of the key. -/
theorem stores_iff (h : c.Shows r) (tidy : r.Tidy) :
    c.Stores key value ↔ (key, value) ∈ (r.lineup (r.place key)).entries := by
  constructor
  · rintro ⟨segment, mem, held⟩
    obtain ⟨i, refines⟩ := h.exists_place mem
    have listed := refines.mem_iff.mpr held
    rwa [tidy.placed i _ listed]
  · intro listed
    obtain ⟨segment, mem, refines⟩ := h.exists_segment key
    exact ⟨segment, mem, refines.mem_iff.mp listed⟩

/-- A read finds what the cache holds. -/
theorem get?_eq_some_iff (h : c.Shows r) (tidy : r.Tidy) :
    (c.get? key).1 = some value ↔ c.Stores key value := by
  obtain ⟨segment, -, refines⟩ := h.exists_segment key
  have same : (c.get? key).1 = (r.lineup (r.place key)).entries.lookup key :=
    (shows_simulation.get? h key).1.trans (Lineup.get?_fst _ key)
  rw [same, refines.lookup_eq_some_iff, h.stores_iff tidy]

/-- A read that finds nothing changes nothing that can be seen later. -/
theorem get?_of_none (h : c.Shows r) (absent : (c.get? key).1 = none) :
    (c.get? key).2.Shows r := by
  obtain ⟨same, next⟩ := shows_simulation.get? h key
  have unchanged := Lineups.get?_of_none (same.symm.trans absent)
  rwa [show Keeper.get? r key = (none, r) from unchanged] at next

/-- What a read found is still held. -/
theorem stores_get? (h : c.Shows r) (tidy : r.Tidy) (found : (c.get? key).1 = some value) :
    (c.get? key).2.Stores key value := by
  obtain ⟨same, next⟩ := shows_simulation.get? h key
  have listed := Lineup.mem_get? (same.symm.trans found)
  rw [← r.lineup_get?] at listed
  exact (next.stores_iff (tidy.get? key)).mpr listed

/-- What was just put is held. -/
theorem stores_put (h : c.Shows r) (tidy : r.Tidy) (key : String) (value : α) :
    (c.put key value).Stores key value := by
  have found := Lineup.lookup_put (tidy.roomy key) key value
  refine ((shows_simulation.put h key value).stores_iff (tidy.put key value)).mpr ?_
  rw [← r.lineup_put] at found
  exact Lineup.mem_of_lookup found

end Shows

/-- Both kinds of caches can be made with room for an entry, a striped one for up to `2 ^ 63`
callers. Their lineups are tidy, and empty. -/
theorem exists_shows (hash : String → Nat) {capacity concurrency : Nat} (positive : 0 < capacity)
    (few : concurrency ≤ 2 ^ 63) :
    ∀ made ∈ [newBounded capacity, newStriped hash capacity concurrency],
      ∃ (c : Cache α) (r : Lineups α), made = .ok c ∧ c.Shows r ∧ r.Tidy := by
  refine List.forall_mem_cons.mpr ⟨?_, List.forall_mem_singleton.mpr ?_⟩
  · exact ⟨_, .single capacity, if_neg (Nat.ne_of_gt positive),
      ⟨rfl, .empty capacity false⟩, Lineups.tidy_single positive⟩
  · obtain ⟨c, made⟩ := (exists_newStriped_iff hash positive).mpr few
    obtain ⟨count, -, some, fits, rfl⟩ := exists_count_of_newStriped made
    exact ⟨_, .empty hash capacity count, made, Striped.Refines.empty hash capacity some,
      Lineups.tidy_empty hash some fits⟩

end ElTemplate.Cache
