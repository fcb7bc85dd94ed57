import ElTemplate.Proofs.Cache.Lineup

/-!
# Segments are lineups

A segment keeps its entries in a hash map and their order in a map from stamps to keys. Both
represent one line of stamped entries: the stamps ascend along the line, none is later than the
clock, and the two maps hold what stands in it. Without its stamps the line is a lineup. Every
operation of the segment changes the line as the lineup prescribes.
-/

namespace ElTemplate.Cache

/-- The first entry of a map is the one with the least key. -/
theorem minEntry?_eq_some {order : Std.TreeMap Nat String} {stamp : Nat} {key : String}
    (found : order[stamp]? = some key)
    (least : ∀ other owner, order[other]? = some owner → stamp ≤ other) :
    order.minEntry? = some (stamp, key) := by
  have sorted := order.inner.wf.ordered
  have first : order.minEntry? = order.toList.head? := by
    change Std.DTreeMap.Internal.Impl.Const.minEntry? order.inner.inner =
      (Std.DTreeMap.Internal.Impl.Const.toList order.inner.inner).head?
    let : Ord Nat := ⟨compare⟩
    rw [Std.DTreeMap.Internal.Impl.Const.minEntry?_eq_minEntry?,
      Std.DTreeMap.Internal.Impl.minEntry?_eq_minEntry? sorted,
      Std.Internal.List.minEntry?_eq_head? sorted,
      Std.DTreeMap.Internal.Impl.Const.toList_eq_toListModel_map, List.head?_map]
  have listed : (stamp, key) ∈ order.toList :=
    Std.TreeMap.mem_toList_iff_getElem?_eq_some.mpr found
  rw [first]
  cases hlist : order.toList with
  | nil => simp [hlist] at listed
  | cons head rest =>
    have ascending := order.ordered_keys_toList
    rw [hlist] at listed ascending
    rcases List.mem_cons.mp listed with same | later
    · rw [same, List.head?_cons]
    · have earlier := Nat.compare_eq_lt.mp (List.rel_of_pairwise_cons ascending later)
      have : (head.1, head.2) ∈ order.toList := by simp [hlist]
      have := least _ _ (Std.TreeMap.mem_toList_iff_getElem?_eq_some.mp this)
      omega

namespace Segment

variable {α : Type}

/-- The maps of the segment hold the entries of a line, the eldest first. -/
structure Represents (s : Segment α) (line : List (String × Entry α)) : Prop where
  entries : ∀ key entry, s.entries[key]? = some entry ↔ (key, entry) ∈ line
  order : ∀ stamp key, s.order[stamp]? = some key ↔
    ∃ entry, (key, entry) ∈ line ∧ entry.stamp = stamp
  ascending : line.Pairwise fun e later => e.2.stamp < later.2.stamp
  stamped : ∀ e ∈ line, e.2.stamp ≤ s.clock
  size : s.size = line.length

variable {s : Segment α} {line before behind : List (String × Entry α)} {key : String}
variable {entry : Entry α} {value : α}

namespace Represents

theorem unique (h : s.Represents line) {other : Entry α} (one : (key, entry) ∈ line)
    (two : (key, other) ∈ line) : entry = other := by
  have found := (h.entries key entry).mpr one
  rw [(h.entries key other).mpr two] at found
  exact (Option.some.inj found).symm

theorem split (h : s.Represents line) (found : s.entries[key]? = some entry) :
    ∃ before behind, line = before ++ (key, entry) :: behind := by
  exact List.append_of_mem ((h.entries key entry).mp found)

/-- Two entries of a line have different stamps, hence different keys. -/
theorem apart (h : s.Represents line) (split : line = before ++ (key, entry) :: behind) :
    (∀ e ∈ before, e.1 ≠ key ∧ e.2.stamp < entry.stamp) ∧
    ∀ e ∈ behind, e.1 ≠ key ∧ entry.stamp < e.2.stamp := by
  have ascending := h.ascending
  rw [split, List.pairwise_append, List.pairwise_cons] at ascending
  obtain ⟨-, ⟨later, -⟩, earlier⟩ := ascending
  have here : (key, entry) ∈ line := by simp [split]
  have differs : ∀ e ∈ line, e.2.stamp ≠ entry.stamp → e.1 ≠ key := by
    rintro ⟨_, other⟩ mem distinct rfl
    exact distinct (congrArg Entry.stamp (h.unique mem here))
  refine ⟨fun e mem => ?_, fun e mem => ?_⟩
  · have older : e.2.stamp < entry.stamp := earlier e mem (key, entry) List.mem_cons_self
    exact ⟨differs e (by simp [split, mem]) (Nat.ne_of_lt older), older⟩
  · have younger : entry.stamp < e.2.stamp := later e mem
    exact ⟨differs e (by simp [split, mem]) (Nat.ne_of_gt younger), younger⟩

theorem empty (capacity : Nat) (refreshOnRead : Bool) :
    (empty capacity refreshOnRead : Segment α).Represents [] := by
  constructor <;> simp [Segment.empty, Segment.size]

/-- A read that finds nothing may still let the clock go on. -/
theorem tick (h : s.Represents line) : Represents { s with clock := s.clock + 1 } line := by
  obtain ⟨entries, order, ascending, stamped, size⟩ := h
  exact ⟨entries, order, ascending, fun e mem => Nat.le_succ_of_le (stamped e mem), size⟩

/-- A read that finds the entry stamps it, which moves it to the end of the line. -/
theorem stamp (h : s.Represents line) (split : line = before ++ (key, entry) :: behind) :
    Represents
      { s with
        clock := s.clock + 1
        entries := s.entries.insert key { entry with stamp := s.clock + 1 }
        order := (s.order.erase entry.stamp).insert (s.clock + 1) key }
      (before ++ behind ++ [(key, { entry with stamp := s.clock + 1 })]) := by
  -- The maps are keyed by key and by stamp, and no other entry has one of these.
  obtain ⟨ahead, beyond⟩ := h.apart split
  obtain ⟨entries, order, ascending, stamped, size⟩ := h
  subst split
  constructor
  · grind
  · intro stamp owner
    simp only [Std.TreeMap.getElem?_insert, Std.TreeMap.getElem?_erase]
    grind
  · grind
  · grind
  · grind [Segment.size]

/-- A value is replaced where its entry stands. -/
theorem replace (h : s.Represents line) (split : line = before ++ (key, entry) :: behind)
    (value : α) :
    Represents { s with entries := s.entries.insert key { entry with value } }
      (before ++ (key, { entry with value }) :: behind) := by
  obtain ⟨ahead, beyond⟩ := h.apart split
  obtain ⟨entries, order, ascending, stamped, size⟩ := h
  subst split
  constructor
  · grind
  · grind
  · simpa [List.pairwise_append] using ascending
  · grind
  · grind [Segment.size]

/-- What comes in has the latest stamp. -/
theorem append (h : s.Represents line) (absent : s.entries[key]? = none) (value : α) :
    Represents
      { s with
        clock := s.clock + 1
        entries := s.entries.insert key ⟨value, s.clock + 1⟩
        order := s.order.insert (s.clock + 1) key }
      (line ++ [(key, ⟨value, s.clock + 1⟩)]) := by
  obtain ⟨entries, order, ascending, stamped, size⟩ := h
  constructor
  · grind
  · intro stamp owner
    simp only [Std.TreeMap.getElem?_insert]
    grind
  · grind
  · grind
  · grind [Segment.size]

/-- The eldest entry is the first of the line. -/
theorem dropEldest? (h : s.Represents ((key, entry) :: line)) :
    ∃ t, s.dropEldest? = some t ∧ t.Represents line ∧ t.capacity = s.capacity ∧
      t.refreshOnRead = s.refreshOnRead := by
  obtain ⟨-, beyond⟩ := h.apart (List.nil_append _).symm
  have eldest : s.order.minEntry? = some (entry.stamp, key) := by
    refine minEntry?_eq_some ((h.order _ _).mpr ⟨entry, by simp⟩) ?_
    intro other owner found
    obtain ⟨e, mem, rfl⟩ := (h.order other owner).mp found
    rcases List.mem_cons.mp mem with same | later
    · rw [(Prod.mk.inj same).2]
    · exact Nat.le_of_lt (beyond _ later).2
  refine ⟨{ s with entries := s.entries.erase key, order := s.order.erase entry.stamp },
    by rw [Segment.dropEldest?, eldest, Option.map_some], ?_, rfl, rfl⟩
  obtain ⟨entries, order, ascending, stamped, size⟩ := h
  constructor
  · grind
  · intro stamp owner
    simp only [Std.TreeMap.getElem?_erase]
    grind
  · grind
  · grind
  · grind [Segment.size]

/-- Nothing is dropped from a line that fits. -/
theorem makeRoom_of_fits (h : s.Represents line) (fits : line.length ≤ s.capacity) (count : Nat) :
    s.makeRoom count = s := by
  cases count with
  | zero => rfl
  | succ count => rw [makeRoom, h.size, if_neg (Nat.not_lt.mpr fits)]

/-- From a line with one entry too many the first is dropped, and no other. -/
theorem makeRoom (h : s.Represents line) (fits : line.length ≤ s.capacity + 1) :
    (s.makeRoom s.size).Represents (if s.capacity < line.length then line.tail else line) ∧
    (s.makeRoom s.size).capacity = s.capacity ∧
    (s.makeRoom s.size).refreshOnRead = s.refreshOnRead := by
  by_cases full : s.capacity < line.length
  · obtain ⟨⟨key, entry⟩, rest, rfl⟩ := List.exists_cons_of_length_pos (Nat.zero_lt_of_lt full)
    obtain ⟨t, dropped, represents, capacity, refreshOnRead⟩ := h.dropEldest?
    have room : rest.length ≤ t.capacity := by simpa [capacity] using fits
    have done : s.makeRoom s.size = t := by
      rw [h.size, List.length_cons, Segment.makeRoom, h.size, if_pos full, dropped]
      exact represents.makeRoom_of_fits room rest.length
    rw [done, if_pos full]
    exact ⟨represents, capacity, refreshOnRead⟩
  · rw [h.makeRoom_of_fits (Nat.not_lt.mp full), if_neg full]
    exact ⟨h, rfl, rfl⟩

end Represents

/-- The lineup is a line of the segment without its stamps, and not too long. -/
structure Refines (s : Segment α) (l : Lineup α) : Prop where
  capacity : l.capacity = s.capacity
  refreshOnRead : l.refreshOnRead = s.refreshOnRead
  line : ∃ line, s.Represents line ∧ l.entries = line.map fun e => (e.1, e.2.value)
  bounded : l.size ≤ l.capacity

namespace Refines

variable {l : Lineup α}

theorem empty (capacity : Nat) (refreshOnRead : Bool) :
    (empty capacity refreshOnRead : Segment α).Refines (.empty capacity refreshOnRead) :=
  ⟨rfl, rfl, ⟨[], .empty capacity refreshOnRead, rfl⟩, Nat.zero_le _⟩

theorem size_eq (h : s.Refines l) : s.size = l.size := by
  obtain ⟨line, represents, shown⟩ := h.line
  rw [represents.size, Lineup.size, shown, List.length_map]

theorem lacks (represents : s.Represents line) (absent : s.entries[key]? = none) :
    Lineup.Lacks (line.map fun e => (e.1, e.2.value)) key := by
  intro e mem same
  obtain ⟨⟨_, entry⟩, there, rfl⟩ := List.mem_map.mp mem
  cases same
  rw [(represents.entries _ entry).mpr there] at absent
  cases absent

/-- An entry of the segment stands in the lineup, and its key stands there once. -/
theorem split (represents : s.Represents line)
    (shown : l.entries = line.map fun e => (e.1, e.2.value))
    (found : s.entries[key]? = some entry) :
    ∃ before behind, line = before ++ (key, entry) :: behind ∧
      l.entries = before.map (fun e => (e.1, e.2.value)) ++ (key, entry.value) ::
        behind.map (fun e => (e.1, e.2.value)) ∧
      Lineup.Lacks (before.map fun e => (e.1, e.2.value)) key ∧
      Lineup.Lacks (behind.map fun e => (e.1, e.2.value)) key := by
  obtain ⟨before, behind, split⟩ := represents.split found
  obtain ⟨ahead, beyond⟩ := represents.apart split
  refine ⟨before, behind, split, by simp [shown, split], fun e mem => ?_, fun e mem => ?_⟩
  · obtain ⟨e, there, rfl⟩ := List.mem_map.mp mem
    exact (ahead e there).1
  · obtain ⟨e, there, rfl⟩ := List.mem_map.mp mem
    exact (beyond e there).1

theorem get? (h : s.Refines l) (key : String) :
    (s.get? key).1 = (l.get? key).1 ∧ (s.get? key).2.Refines (l.get? key).2 := by
  have bounded : (l.get? key).2.size ≤ (l.get? key).2.capacity := by
    rw [Lineup.get?_capacity]
    exact (l.size_get?_le key).trans h.bounded
  obtain ⟨capacity, refreshOnRead, ⟨line, represents, shown⟩, -⟩ := h
  cases found : s.entries[key]? with
  | none =>
    rw [Lineup.get?_of_lacks (shown ▸ lacks represents found)] at bounded ⊢
    simp only [Segment.get?, found]
    split
    · exact ⟨rfl, capacity, refreshOnRead, ⟨line, represents.tick, shown⟩, bounded⟩
    · exact ⟨rfl, capacity, refreshOnRead, ⟨line, represents, shown⟩, bounded⟩
  | some entry =>
    obtain ⟨before, behind, place, shownSplit, ahead, beyond⟩ := split represents shown found
    have owner : s.order[entry.stamp]? = some key :=
      (represents.order _ _).mpr ⟨entry, (represents.entries _ _).mp found, rfl⟩
    rw [Lineup.get?_of_split shownSplit ahead beyond] at bounded ⊢
    simp only [Segment.get?, found, owner]
    split
    · next refreshes =>
      rw [if_pos (refreshOnRead.trans refreshes)] at bounded ⊢
      exact ⟨rfl, capacity, refreshOnRead, ⟨_, represents.stamp place, by simp⟩, bounded⟩
    · next steady =>
      rw [if_neg (refreshOnRead ▸ steady)] at bounded ⊢
      exact ⟨rfl, capacity, refreshOnRead, ⟨line, represents, shown⟩, bounded⟩

theorem put (h : s.Refines l) (key : String) (value : α) :
    (s.put key value).Refines (l.put key value) := by
  have bounded : (l.put key value).size ≤ (l.put key value).capacity := by
    rw [Lineup.put_capacity]
    exact Lineup.size_put_le h.bounded key value
  have fits : s.size ≤ s.capacity := h.size_eq ▸ h.capacity ▸ h.bounded
  obtain ⟨capacity, refreshOnRead, ⟨line, represents, shown⟩, -⟩ := h
  cases found : s.entries[key]? with
  | none =>
    rw [Lineup.put_of_lacks (shown ▸ lacks represents found)] at bounded ⊢
    rw [represents.size] at fits
    obtain ⟨kept, room, reads⟩ := (represents.append found value).makeRoom (by simpa using fits)
    simp only [Segment.put, found]
    refine ⟨capacity.trans room.symm, refreshOnRead.trans reads.symm, ⟨_, kept, ?_⟩, bounded⟩
    simp only [shown, capacity, List.length_map, List.length_append, List.length_singleton]
    split <;> simp
  | some entry =>
    obtain ⟨before, behind, place, shownSplit, ahead, beyond⟩ := split represents shown found
    rw [Lineup.put_of_split shownSplit ahead beyond] at bounded ⊢
    simp only [Segment.put, found]
    exact ⟨capacity, refreshOnRead, ⟨_, represents.replace place value, by simp⟩, bounded⟩

end Refines

theorem simulation : Simulation (Refines (α := α)) :=
  ⟨Refines.get?, Refines.put, Refines.size_eq⟩

end Segment

end ElTemplate.Cache
