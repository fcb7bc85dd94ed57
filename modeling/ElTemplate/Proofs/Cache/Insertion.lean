import ElTemplate.Proofs.Cache.Representation

/-!
# Eviction in order of insertion

A cache with a single segment is a lineup that nothing but insertion moves. How far an entry is
from eviction is the number of entries behind it: each insertion of an absent key adds one, and
nothing else does. So an entry lives through as many insertions as there are other places, however
often it is read or replaced, and reads might as well be left out of a run.
-/

namespace ElTemplate.Cache

variable {α : Type}

namespace Lineup

variable {l : Lineup α} {key other : String} {value : α} {count : Nat}

theorem get?_eq_none_iff : (l.get? key).1 = none ↔ Lacks l.entries key := by
  rw [← lookup_eq_none_iff, get?]
  split
  · next absent => simp [absent]
  · next value found => split <;> simp [found]

/-- The key is present, and so many entries stand behind it. -/
def Followed (l : Lineup α) (key : String) (count : Nat) : Prop :=
  ∃ before value behind, l.entries = before ++ (key, value) :: behind ∧
    Lacks before key ∧ Lacks behind key ∧ behind.length = count

namespace Followed

theorem isSome (h : l.Followed key count) : (l.get? key).1.isSome := by
  obtain ⟨before, value, behind, split, ahead, beyond, -⟩ := h
  rw [get?_of_split split ahead beyond]
  rfl

/-- Replacing a value moves nothing. -/
theorem replace (h : l.Followed key count) (present : ¬ Lacks l.entries other) (value : α) :
    (l.put other value).Followed key count := by
  obtain ⟨before, current, behind, split, ahead, beyond, rfl⟩ := h
  have lacks : ∀ {entries : List (String × α)}, Lacks entries key →
      Lacks (entries.map fun e => if e.1 = other then (other, value) else e) key := by
    intro entries lacks e mem
    obtain ⟨e, there, rfl⟩ := List.mem_map.mp mem
    have := lacks e there
    grind
  have entries : (l.put other value).entries =
      l.entries.map fun e => if e.1 = other then (other, value) else e := by
    rw [put]
    split
    · rfl
    · next absent => exact absurd (lookup_eq_none_iff.mp absent) present
  refine ⟨_, if key = other then value else current, _, ?_, lacks ahead, lacks beyond,
    List.length_map _⟩
  rw [entries, split, List.map_append, List.map_cons]
  grind

/-- An insertion comes in behind. It drops the first entry at most, which is not this one while
there is another place. -/
theorem insert (h : l.Followed key count) (absent : Lacks l.entries other)
    (room : count + 1 < l.capacity) (value : α) : (l.put other value).Followed key (count + 1) := by
  obtain ⟨before, current, behind, split, ahead, beyond, rfl⟩ := h
  have differs : key ≠ other := absent (key, current) (by simp [split])
  have further : Lacks (behind ++ [(other, value)]) key := by
    intro e mem
    rcases List.mem_append.mp mem with there | new
    · exact beyond e there
    · cases List.mem_singleton.mp new
      exact differs.symm
  rw [put_of_lacks absent]
  cases before with
  | nil =>
    rw [if_neg (by simp [split]; omega)]
    exact ⟨[], current, _, by simp [split], ahead, further, by simp⟩
  | cons first rest =>
    have short : Lacks rest key := fun e mem => ahead e (List.mem_cons_of_mem _ mem)
    split
    · exact ⟨rest, current, _, by simp [split], short, further, by simp⟩
    · exact ⟨first :: rest, current, _, by simp [split], ahead, further, by simp⟩

/-- Where every other place is taken from behind, the next insertion drops the entry. -/
theorem evict (h : l.Followed key count) (absent : Lacks l.entries other)
    (bounded : l.size ≤ l.capacity) (full : l.capacity ≤ count + 1) (value : α) :
    Lacks (l.put other value).entries key := by
  obtain ⟨before, current, behind, split, ahead, beyond, rfl⟩ := h
  have differs : key ≠ other := absent (key, current) (by simp [split])
  simp only [size, split, List.length_append, List.length_cons] at bounded
  have first : before = [] := List.eq_nil_of_length_eq_zero (by omega)
  rw [first, List.nil_append] at split
  rw [put_of_lacks absent, if_pos (by simp [split]; omega), split]
  intro e mem
  rcases List.mem_append.mp mem with there | new
  · exact beyond e there
  · cases List.mem_singleton.mp new
    exact differs.symm

end Followed

/-- The lineup keeps to its capacity and does not refresh on reading. -/
structure IsQueue (l : Lineup α) : Prop where
  steady : l.refreshOnRead = false
  bounded : l.size ≤ l.capacity

@[simp] theorem perform_capacity (l : Lineup α) (op : Operation α) :
    (perform l op).2.capacity = l.capacity := by
  cases op with
  | get key => exact l.get?_capacity key
  | put key value => exact l.put_capacity key value
  | size => rfl

@[simp] theorem after_capacity (l : Lineup α) (ops : List (Operation α)) :
    (after l ops).capacity = l.capacity := by
  induction ops generalizing l with
  | nil => rfl
  | cons op ops ih => exact (ih _).trans (l.perform_capacity op)

namespace IsQueue

theorem empty (capacity : Nat) : (empty capacity false : Lineup α).IsQueue :=
  ⟨rfl, Nat.zero_le _⟩

/-- Reading a queue leaves it as it is. -/
theorem get?_snd (h : l.IsQueue) (key : String) : (l.get? key).2 = l := by
  rw [get?]
  split
  · rfl
  · rw [if_neg (by simp [h.steady])]

theorem put (h : l.IsQueue) (key : String) (value : α) : (l.put key value).IsQueue :=
  ⟨(l.put_refreshOnRead key value).trans h.steady,
    (size_put_le h.bounded key value).trans_eq (l.put_capacity key value).symm⟩

theorem perform (h : l.IsQueue) (op : Operation α) : (perform l op).2.IsQueue := by
  cases op with
  | get key => exact (h.get?_snd key).symm ▸ h
  | put key value => exact h.put key value
  | size => exact h

theorem after (h : l.IsQueue) (ops : List (Operation α)) : (after l ops).IsQueue := by
  induction ops generalizing l with
  | nil => exact h
  | cons op ops ih => exact ih (h.perform op)

/-- Without the reads, a run ends in the same state. -/
theorem after_filter (h : l.IsQueue) (ops : List (Operation α)) :
    Cache.after l (ops.filter (!·.isGet)) = Cache.after l ops := by
  induction ops generalizing l with
  | nil => rfl
  | cons op ops ih =>
    have further := ih (h.perform op)
    cases op with
    | get key =>
      have same : (Cache.perform l (.get key)).2 = l := h.get?_snd key
      rw [same] at further
      simpa [Operation.isGet, Cache.after, same] using further
    | put key value => simpa [Operation.isGet, Cache.after] using further
    | size => simpa [Operation.isGet, Cache.after] using further

theorem insertions_of_lacks (absent : Lacks l.entries other) (value : α) :
    insertions l [.put other value] = 1 := by
  simp [insertions, inserts, Keeper.get?, get?_eq_none_iff.mpr absent]

theorem insertions_of_not_lacks (present : ¬ Lacks l.entries other) (value : α) :
    insertions l [.put other value] = 0 := by
  have found := mt get?_eq_none_iff.mp present
  simpa [insertions, inserts, Keeper.get?, Option.isSome_iff_ne_none] using found

/-- An operation adds to what stands behind an entry just if it inserts. -/
theorem followed_perform (h : l.IsQueue) (followed : l.Followed key count) (op : Operation α)
    (room : count + insertions l [op] < l.capacity) :
    (Cache.perform l op).2.Followed key (count + insertions l [op]) := by
  cases op with
  | get read =>
    have same : (Cache.perform l (.get read)).2 = l := h.get?_snd read
    simpa [same, insertions, inserts] using followed
  | size => simpa [Cache.perform, insertions, inserts] using followed
  | put other value =>
    by_cases absent : Lacks l.entries other
    · rw [insertions_of_lacks absent] at room ⊢
      exact followed.insert absent room value
    · rw [insertions_of_not_lacks absent] at room ⊢
      exact followed.replace absent value

theorem followed_after (h : l.IsQueue) (followed : l.Followed key count) (ops : List (Operation α))
    (room : count + insertions l ops < l.capacity) :
    (Cache.after l ops).Followed key (count + insertions l ops) := by
  induction ops generalizing l count with
  | nil => simpa [Cache.after, insertions] using followed
  | cons op ops ih =>
    rw [insertions_cons, ← Nat.add_assoc] at room ⊢
    have next := h.followed_perform followed op (by omega)
    exact ih (h.perform op) next (by simpa using room)

/-- The insertion that fills every other place from behind drops the entry. -/
theorem evict_perform (h : l.IsQueue) (followed : l.Followed key count) (op : Operation α)
    (room : count < l.capacity) (full : count + insertions l [op] = l.capacity) :
    ((Cache.perform l op).2.get? key).1 = none := by
  cases op with
  | get read => simp [insertions, inserts] at full; omega
  | size => simp [insertions, inserts] at full; omega
  | put other value =>
    by_cases absent : Lacks l.entries other
    · rw [insertions_of_lacks absent] at full
      exact get?_eq_none_iff.mpr (followed.evict absent h.bounded full.ge value)
    · rw [insertions_of_not_lacks absent] at full
      omega

/-- A key with nothing behind it stays while fewer keys are inserted than there is room for, and
goes with the last of these. -/
theorem lifetime (h : l.IsQueue) (last : l.Followed key 0) {ops : List (Operation α)}
    (few : insertions l ops < l.capacity) :
    ((Cache.after l ops).get? key).1.isSome ∧
    ∀ op, insertions l (ops ++ [op]) = l.capacity →
      ((Cache.after l (ops ++ [op])).get? key).1 = none := by
  have now := h.followed_after last ops (by simpa using few)
  refine ⟨now.isSome, fun op full => ?_⟩
  rw [insertions_append] at full
  rw [after_append]
  exact (h.after ops).evict_perform now op (by simpa using few) (by simpa using full)

end IsQueue

/-- A key that comes in has nothing behind it. -/
theorem followed_put (absent : Lacks l.entries key) (positive : 0 < l.capacity) (value : α) :
    (l.put key value).Followed key 0 := by
  rw [put_of_lacks absent]
  by_cases full : l.capacity < l.entries.length + 1
  · rw [if_pos full]
    have : 0 < l.entries.length := by omega
    obtain ⟨first, rest, split⟩ := List.exists_cons_of_length_pos this
    refine ⟨rest, value, [], by simp [split], fun e mem => ?_, by simp [Lacks], rfl⟩
    exact absent e (by simp [split, mem])
  · rw [if_neg full]
    exact ⟨l.entries, value, [], rfl, absent, by simp [Lacks], rfl⟩

end Lineup

/-- The only segment of the cache refines the lineup. -/
def IsBounded (c : Cache α) (l : Lineup α) : Prop :=
  ∃ segment, c = bounded segment ∧ segment.Refines l

theorem isBounded_simulation : Simulation (IsBounded (α := α)) :=
  Segment.simulation.wrap bounded (fun _ _ => rfl) (fun _ _ _ => rfl) fun _ => rfl

/-- A bounded cache answers as a lineup in which only insertions move entries. In particular, a key
that comes in stays for less than `capacity` further insertions of absent keys and is gone right
after the last of these, whatever is read and replaced in between; and leaving out the reads of a
run changes no later answer. -/
theorem bounded_refines {capacity : Nat} (positive : 0 < capacity) :
    ∃ c : Cache α, newBounded capacity = .ok c ∧
      (∀ ops, answers c ops = answers (Lineup.empty capacity false : Lineup α) ops) ∧
      (∀ earlier key value, ((after c earlier).get? key).1 = none →
        let fresh := after c (earlier ++ [.put key value])
        ∀ ops, insertions fresh ops < capacity →
          ((after fresh ops).get? key).1.isSome ∧
          ∀ op, insertions fresh (ops ++ [op]) = capacity →
            ((after fresh (ops ++ [op])).get? key).1 = none) ∧
      ∀ earlier ops, answers (after c (earlier.filter (!·.isGet))) ops =
        answers (after c earlier) ops := by
  have refines : IsBounded (.bounded (.empty capacity false)) (.empty capacity false : Lineup α) :=
    ⟨_, rfl, .empty capacity false⟩
  have queue := Lineup.IsQueue.empty (α := α) capacity
  refine ⟨_, if_neg (Nat.ne_of_gt positive), isBounded_simulation.answers_eq refines, ?_, ?_⟩
  · -- The lineup has this lifetime, and it agrees with the cache on insertions and reads.
    intro earlier key value absent fresh ops few
    have before := isBounded_simulation.after refines earlier
    have related := isBounded_simulation.after refines (earlier ++ [.put key value])
    have lacks := Lineup.get?_eq_none_iff.mp ((isBounded_simulation.get? before key).1 ▸ absent)
    have last := Lineup.followed_put lacks (by simpa using positive) value
    rw [isBounded_simulation.insertions_eq related] at few
    obtain ⟨stays, goes⟩ := (queue.after (earlier ++ [.put key value])).lifetime
      (by rw [after_append]; exact last) (few.trans_eq (by simp))
    have found := fun ops =>
      (isBounded_simulation.get? (isBounded_simulation.after related ops) key).1
    refine ⟨(found ops).symm ▸ stays, fun op full => (found _).trans (goes op ?_)⟩
    rw [← isBounded_simulation.insertions_eq related, full]
    simp
  · intro earlier ops
    rw [isBounded_simulation.answers_eq (isBounded_simulation.after refines _),
      isBounded_simulation.answers_eq (isBounded_simulation.after refines _),
      queue.after_filter]

/-- With room for two, the eldest key goes with the second insertion after it. -/
theorem bounded_refines_two : 0 < 2 ∧ ∃ c : Cache Nat, newBounded 2 = .ok c ∧
    answers c [.put "a" 1, .get "a", .put "b" 2, .put "a" 3, .put "c" 4, .get "a", .size] =
      [.stored, .found (some 1), .stored, .stored, .stored, .found none, .counted 2] := by
  obtain ⟨c, made, same, -⟩ := bounded_refines (α := Nat) (show 0 < 2 by decide)
  exact ⟨by decide, c, made, (same _).trans (by decide)⟩

end ElTemplate.Cache
