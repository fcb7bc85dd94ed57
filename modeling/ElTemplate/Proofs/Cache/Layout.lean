import ElTemplate.Proofs.Cache.Retention

/-!
# How a striped cache shares out its capacity

The number of segments is the least power of two that is enough for the callers, or the capacity if
that is less. So every segment has room for an entry, no two of them differ by more than
one, and nothing of the capacity is lost. What a segment has room for never changes.
-/

namespace ElTemplate.Cache

/-- The first few shares are larger by one than the others. -/
theorem share_le_succ (capacity count i j : Nat) :
    Striped.share capacity count i ≤ Striped.share capacity count j + 1 := by
  simp only [Striped.share]
  split <;> split <;> omega

variable {α : Type}

namespace Lineups

theorem count_after (r : Lineups α) (ops : List (Operation α)) : (after r ops).count = r.count := by
  induction ops generalizing r with
  | nil => rfl
  | cons op ops ih => cases op <;> exact ih _

/-- The lineups have their shares of a capacity, and are no longer. -/
structure Shared (r : Lineups α) (capacity : Nat) : Prop extends r.Within capacity where
  share : ∀ i, (r.lineup i).capacity = Striped.share capacity r.count i

theorem shared_empty (hash : String → Nat) (capacity : Nat) {count : Nat} (positive : 0 < count) :
    (empty hash capacity count : Lineups α).Shared capacity :=
  ⟨within_empty hash capacity positive, fun _ => rfl⟩

theorem Shared.after {r : Lineups α} {capacity : Nat} (h : r.Shared capacity)
    (ops : List (Operation α)) : (after r ops).Shared capacity where
  toWithin := h.toWithin.after ops
  share i := by rw [capacity_after, count_after, h.share]

end Lineups

namespace Striped

variable {c : Striped α} {r : Lineups α} {segment : Segment α} {capacity : Nat}

/-- Every segment has the capacity of a share, and no more entries. -/
theorem Refines.exists_share (h : c.Refines r) (shared : r.Shared capacity)
    (mem : segment ∈ c.segments) :
    ∃ i, segment.capacity = share capacity r.count i ∧ segment.size ≤ segment.capacity := by
  obtain ⟨i, found⟩ := Array.mem_iff_getElem?.mp mem
  have refines := h.segments i segment found
  refine ⟨i, refines.capacity.symm.trans (shared.share i), ?_⟩
  rw [refines.size_eq, ← refines.capacity]
  exact refines.bounded

/-- Putting a key puts it in the segment that its hash chooses. -/
theorem Refines.exists_put (h : c.Refines r) (key : String) (value : α) :
    ∃ segment, c.segments[c.index key]? = some segment ∧
      (c.put key value).segments = c.segments.set! (c.index key) (segment.put key value) := by
  obtain ⟨segment, found, -⟩ := h.exists_segment key
  refine ⟨segment, found, ?_⟩
  apply Array.ext_getElem?
  intro i
  rw [Array.set!_eq_setIfInBounds]
  grind [Striped.put]

end Striped

/-- A striped cache for up to `2 ^ 63` callers has as many segments as the least power of two that
is no less than their number, but no more than its capacity. The segments have room for the whole
capacity together and for equally many entries up to one, which is at least one entry each. So after
any operations every key has a segment to be put in, where the next read finds it, and there are
never more entries than the capacity. -/
theorem striped_layout (hash : String → Nat) {capacity concurrency : Nat}
    (positive : 0 < capacity) (few : concurrency ≤ 2 ^ 63) :
    ∃ (c : Cache α) (power : Nat), newStriped hash capacity concurrency = .ok c ∧
      IsLeast {p | p.isPowerOfTwo ∧ max concurrency 1 ≤ p} power ∧ ∀ ops,
      let now := after c ops
      now.segments.size = min power capacity ∧
      (∀ segment ∈ now.segments, 0 < segment.capacity ∧ segment.size ≤ segment.capacity ∧
        ∀ other ∈ now.segments, segment.capacity ≤ other.capacity + 1) ∧
      now.capacity = capacity ∧ now.size ≤ capacity ∧
      ∀ key value, ∃ segment, now.segments[hash key % min power capacity]? = some segment ∧
        (now.put key value).segments =
          now.segments.set! (hash key % min power capacity) (segment.put key value) ∧
        ((now.put key value).get? key).1 = some value := by
  obtain ⟨c, made⟩ := (exists_newStriped_iff hash positive).mpr few
  obtain ⟨count, counted, some, fits, rfl⟩ := exists_count_of_newStriped made
  obtain ⟨power, least, rfl⟩ := Striped.exists_power counted
  have refines : IsStriped (.striped (.empty hash capacity (min power capacity)))
      (.empty hash capacity (min power capacity) : Lineups α) :=
    ⟨_, rfl, .empty hash capacity some⟩
  refine ⟨_, power, made, least, fun ops => ?_⟩
  intro now
  obtain ⟨stripes, same, related⟩ := isStriped_simulation.after refines ops
  have shared := (Lineups.shared_empty (α := α) hash capacity some).after ops
  have tidy := (Lineups.tidy_empty (α := α) hash some fits).after ops
  have count : (after (Lineups.empty hash capacity (min power capacity) : Lineups α) ops).count =
      min power capacity := Lineups.count_after _ ops
  have index (key : String) : hash key % min power capacity = stripes.index key := by
    rw [← related.place_eq, Lineups.place_after]
    rfl
  rw [show now = striped stripes from same]
  refine ⟨related.count.symm.trans count, fun segment mem => ?_,
    related.capacity_eq.trans shared.shares, related.size_eq.trans_le shared.size_le,
    fun key value => ?_⟩
  · obtain ⟨i, room, bounded⟩ := related.exists_share shared mem
    refine ⟨?_, bounded, fun other mem => ?_⟩
    · rw [room, count]
      exact Lineups.share_pos some fits i
    · obtain ⟨j, room', -⟩ := related.exists_share shared mem
      rw [room, room']
      exact share_le_succ capacity _ i j
  · obtain ⟨segment, found, put⟩ := related.exists_put key value
    have shows : (striped stripes).Shows _ := related
    have next : ((striped stripes).put key value).Shows _ :=
      shows_simulation.put shows key value
    rw [index]
    exact ⟨segment, found, put,
      (next.get?_eq_some_iff (tidy.put key value)).mpr (shows.stores_put tidy key value)⟩

/-- Four callers get three segments for one entry each where there is room for three, and what is
put in a full one is found next. -/
theorem striped_layout_three : 0 < 3 ∧ 4 ≤ 2 ^ 63 ∧
    ∃ c : Cache Nat, newStriped String.length 3 4 = .ok c ∧ c.segments.size = 3 ∧ c.capacity = 3 ∧
    (((after c [.put "a" 1]).put "b" 2).get? "b").1 = some 2 := by
  obtain ⟨c, power, made, ⟨⟨-, enough⟩, least⟩, layout⟩ :=
    striped_layout (α := Nat) String.length (show 0 < 3 by decide) (show 4 ≤ 2 ^ 63 by decide)
  have four : power = 4 := Nat.le_antisymm (least ⟨⟨2, rfl⟩, by decide⟩) enough
  subst four
  obtain ⟨count, -, room, -⟩ := layout []
  obtain ⟨-, -, -, -, put⟩ := layout [.put "a" 1]
  obtain ⟨-, -, -, found⟩ := put "b" 2
  exact ⟨by decide, by decide, c, made, count, room, found⟩

end ElTemplate.Cache
