import ElTemplate.Proofs.Cache.Insertion

/-!
# Segments stay whole

The two maps of a segment are changed one after the other, so that a read or an eviction could find
one of them behind the other. In no state that operations lead to does it: a stamp leads to a key
just if the entry of that key has the stamp. So a read finds the stamp of every entry, and bringing
in a key drops one other entry at most, with the loop over eldest entries never at a loss for one.
-/

namespace ElTemplate.Cache.Segment

variable {α : Type} {s t : Segment α} {line : List (String × Entry α)} {key : String}
  {entry : Entry α} {value : α} {count : Nat}

/-- The maps of the segment fit together, its clock and its capacity. -/
structure IsWhole (s : Segment α) : Prop where
  /-- A stamp leads to a key just if the entry of that key has the stamp. -/
  order_iff : ∀ stamp key, s.order[stamp]? = some key ↔
    ∃ entry : Entry α, s.entries[key]? = some entry ∧ entry.stamp = stamp
  distinct : ∀ (key other : String) (entry entry' : Entry α), s.entries[key]? = some entry →
    s.entries[other]? = some entry' → entry.stamp = entry'.stamp → key = other
  stamped : ∀ (key : String) (entry : Entry α), s.entries[key]? = some entry →
    entry.stamp ≤ s.clock
  bounded : s.size ≤ s.capacity

/-- The segment with a new key, before there is room for it. -/
def enter (s : Segment α) (key : String) (value : α) : Segment α :=
  { s with
    clock := s.clock + 1
    entries := s.entries.insert key ⟨value, s.clock + 1⟩
    order := s.order.insert (s.clock + 1) key }

/-- Dropping eldest entries one after the other ends after so many with a segment that has room. An
order that is empty too early ends it nowhere. -/
inductive Evicts : Segment α → Nat → Segment α → Prop
  | room {s : Segment α} (fits : s.size ≤ s.capacity) : Evicts s 0 s
  | drop {s t u : Segment α} {count : Nat} (full : s.capacity < s.size)
      (dropped : s.dropEldest? = some t) (further : Evicts t count u) : Evicts s (count + 1) u

theorem put_of_none (absent : s.entries[key]? = none) (value : α) :
    s.put key value = (s.enter key value).makeRoom (s.enter key value).size := by
  rw [put, absent]
  rfl

section Clock

theorem dropEldest?_clock (dropped : s.dropEldest? = some t) : t.clock = s.clock := by
  obtain ⟨⟨stamp, eldest⟩, -, rfl⟩ := Option.map_eq_some_iff.mp dropped
  rfl

@[simp] theorem makeRoom_clock (count : Nat) (s : Segment α) :
    (s.makeRoom count).clock = s.clock := by
  induction count generalizing s with
  | zero => rfl
  | succ count ih =>
    rw [makeRoom]
    split
    · split
      · next dropped => rw [ih, dropEldest?_clock dropped]
      · rfl
    · rfl

theorem get?_clock_le (s : Segment α) (key : String) : (s.get? key).2.clock ≤ s.clock + 1 := by
  simp only [get?]
  split
  · split
    · exact Nat.le_refl _
    · split <;> exact Nat.le_refl _
  · exact Nat.le_succ _

theorem put_clock_le (s : Segment α) (key : String) (value : α) :
    (s.put key value).clock ≤ s.clock + 1 := by
  cases absent : s.entries[key]? with
  | none => simp [put_of_none absent, enter]
  | some entry => simp [put, absent]

/-- Every operation takes one tick at most. -/
theorem after_clock_le (s : Segment α) (ops : List (Operation α)) :
    (after s ops).clock ≤ s.clock + ops.length := by
  induction ops generalizing s with
  | nil => exact Nat.le_refl _
  | cons op ops ih =>
    have tick : (perform s op).2.clock ≤ s.clock + 1 := by
      cases op with
      | get key => exact s.get?_clock_le key
      | put key value => exact s.put_clock_le key value
      | size => exact Nat.le_succ _
    have := ih (perform s op).2
    simp only [after, List.length_cons]
    omega

end Clock

namespace Represents

theorem isWhole (h : s.Represents line) (fits : line.length ≤ s.capacity) : s.IsWhole where
  order_iff stamp key := by simp only [h.order, h.entries]
  distinct key other entry entry' one two same := by
    have first := (h.order entry.stamp key).mpr ⟨entry, (h.entries _ _).mp one, rfl⟩
    have second := (h.order entry.stamp other).mpr ⟨entry', (h.entries _ _).mp two, same.symm⟩
    exact Option.some.inj (first.symm.trans second)
  stamped key entry found := h.stamped _ ((h.entries key entry).mp found)
  bounded := h.size.trans_le fits

/-- As many entries are dropped as there are too many. -/
theorem evicts (h : s.Represents line) (enough : line.length - s.capacity ≤ count) :
    s.Evicts (line.length - s.capacity) (s.makeRoom count) := by
  induction line generalizing s count with
  | nil =>
    have fits : ([] : List (String × Entry α)).length ≤ s.capacity := Nat.zero_le _
    rw [h.makeRoom_of_fits fits, Nat.sub_eq_zero_of_le fits]
    exact .room (h.size.trans_le fits)
  | cons first rest ih =>
    by_cases fits : (first :: rest).length ≤ s.capacity
    · rw [h.makeRoom_of_fits fits, Nat.sub_eq_zero_of_le fits]
      exact .room (h.size.trans_le fits)
    · obtain ⟨t, dropped, represents, capacity, -⟩ := h.dropEldest?
      have full : s.capacity < s.size := by rw [h.size]; exact Nat.not_le.mp fits
      have more : (first :: rest).length - s.capacity = rest.length - t.capacity + 1 := by
        rw [capacity, List.length_cons] at *
        omega
      rw [more] at enough ⊢
      obtain ⟨count, rfl⟩ := Nat.exists_eq_add_of_le' (Nat.le_of_add_left_le enough)
      rw [Segment.makeRoom, if_pos full, dropped]
      exact .drop full dropped (ih represents (Nat.le_of_add_le_add_right enough))

/-- A key that comes in is still there when there is room again. -/
theorem getElem?_put (h : s.Represents line) (fits : line.length ≤ s.capacity)
    (positive : 0 < s.capacity) (absent : s.entries[key]? = none) (value : α) :
    (s.put key value).entries[key]? = some ⟨value, s.clock + 1⟩ := by
  obtain ⟨kept, -, -⟩ := (h.append absent value).makeRoom (by simpa using fits)
  rw [put_of_none absent]
  refine (kept.entries key _).mpr ?_
  split
  · next full =>
    have some : line ≠ [] := by
      rintro rfl
      simp at full
      omega
    rw [List.tail_append_of_ne_nil some]
    exact List.mem_append_right _ List.mem_cons_self
  · exact List.mem_append_right _ List.mem_cons_self

end Represents

/-- In every state of a segment, the order and the entries are inverse to each other by their
stamps, which are distinct and not later than the clock; the clock counts operations at most. A read
of a present key finds its stamp in the order, so it gives the value. Bringing in a key drops one
entry at most until there is room, which is always found and is not the new one. -/
theorem after_isWhole {capacity : Nat} (positive : 0 < capacity) (refreshOnRead : Bool)
    (ops : List (Operation α)) :
    let now : Segment α := after (.empty capacity refreshOnRead) ops
    now.IsWhole ∧ now.capacity = capacity ∧ now.clock ≤ ops.length ∧
    (∀ key entry, now.entries[key]? = some entry →
      now.order[entry.stamp]? = some key ∧ (now.get? key).1 = some entry.value) ∧
    ∀ key value, now.entries[key]? = none →
      (∃ count ≤ 1, (now.enter key value).Evicts count (now.put key value)) ∧
      (now.put key value).entries[key]? = some ⟨value, now.clock + 1⟩ := by
  intro now
  have refines := simulation.after (Refines.empty (α := α) capacity refreshOnRead) ops
  obtain ⟨line, represents, shown⟩ := refines.line
  have room : now.capacity = capacity :=
    refines.capacity.symm.trans (Lineup.after_capacity _ ops)
  have fits : line.length ≤ now.capacity :=
    (represents.size.symm.trans refines.size_eq).trans_le (refines.capacity ▸ refines.bounded)
  have whole := represents.isWhole fits
  have ticks : now.clock ≤ 0 + ops.length := after_clock_le (.empty capacity refreshOnRead) ops
  refine ⟨whole, room, ticks.trans_eq (Nat.zero_add _), fun key entry found => ?_,
    fun key value absent => ⟨?_, ?_⟩⟩
  · have owner : now.order[entry.stamp]? = some key := (whole.order_iff _ _).mpr ⟨entry, found, rfl⟩
    refine ⟨owner, ?_⟩
    simp only [Segment.get?, found, owner]
    split <;> rfl
  · have entered : (now.enter key value).Represents _ := represents.append absent value
    rw [put_of_none absent]
    refine ⟨_, ?_, entered.evicts (entered.size ▸ Nat.sub_le _ _)⟩
    have same : (now.enter key value).capacity = now.capacity := rfl
    rw [List.length_append, List.length_singleton, same]
    omega
  · exact represents.getElem?_put fits (positive.trans_eq room.symm) absent value

/-- A second key in a segment with one place drops the first, which was still to be read. -/
theorem after_isWhole_one :
    0 < 1 ∧
    let now : Segment Nat := after (.empty 1 true) [.put "a" 7]
    now.IsWhole ∧
    (now.entries["a"]? = some ⟨7, 1⟩ ∧ now.order[1]? = some "a" ∧ (now.get? "a").1 = some 7) ∧
    now.entries["b"]? = none ∧ (∃ count ≤ 1, (now.enter "b" 8).Evicts count (now.put "b" 8)) ∧
    (now.put "b" 8).entries["b"]? = some ⟨8, now.clock + 1⟩ := by
  obtain ⟨whole, -, -, reads, puts⟩ :=
    after_isWhole (α := Nat) (show 0 < 1 by decide) true [.put "a" 7]
  have kept : (after (.empty 1 true : Segment Nat) [.put "a" 7]).entries["a"]? = some ⟨7, 1⟩ := by
    simp [after, perform, Keeper.put, Segment.put, empty, makeRoom, Segment.size,
      Std.HashMap.size_insert]
  have absent : (after (.empty 1 true : Segment Nat) [.put "a" 7]).entries["b"]? = none := by
    simp [after, perform, Keeper.put, Segment.put, empty, makeRoom, Segment.size,
      Std.HashMap.size_insert]
  exact ⟨by decide, whole, ⟨kept, reads "a" _ kept⟩, absent, puts "b" 8 absent⟩

end ElTemplate.Cache.Segment
