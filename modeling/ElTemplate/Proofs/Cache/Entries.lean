import ElTemplate.Proofs.Cache.Rounding

/-!
# What cached values have in common

A relation between keys and values that holds of every entry survives all the ways in which a
cache changes: entries are stamped anew, replaced, brought in and evicted, but a value never moves
to another key. It is enough that every value that is put stands in the relation to its key.
-/

namespace ElTemplate.Cache

variable {α : Type} {good : String → α → Prop} {key : String} {value : α}

namespace Segment

variable {s : Segment α}

/-- Every entry of the segment is in the relation. -/
def Holds (s : Segment α) (good : String → α → Prop) : Prop :=
  ∀ key entry, s.entries[key]? = some entry → good key entry.value

theorem holds_empty (capacity : Nat) (refreshOnRead : Bool) :
    (empty capacity refreshOnRead : Segment α).Holds good := by
  intro key entry found
  simp [empty] at found

/-- What a read finds is in the relation. -/
theorem Holds.of_get? (h : s.Holds good) (found : (s.get? key).1 = some value) :
    good key value := by
  simp only [get?] at found
  split at found
  · split at found
    · cases found
    · next entry hentry =>
      split at found
      · cases found
      · cases found
        exact h key entry hentry
  · obtain ⟨entry, hentry, rfl⟩ := Option.map_eq_some_iff.mp found
    exact h key entry hentry

/-- Inserting a value under its own key keeps the relation, whatever the stamp. -/
theorem Holds.insert (h : s.Holds good) (hvalue : good key value) (stamp : Nat)
    {other : String} {entry : Entry α}
    (found : (s.entries.insert key ⟨value, stamp⟩)[other]? = some entry) :
    good other entry.value := by
  rw [Std.HashMap.getElem?_insert] at found
  split at found
  · next same =>
    cases found
    exact eq_of_beq same ▸ hvalue
  · exact h other entry found

/-- A read may stamp the entry it finds, but leaves its value. -/
theorem Holds.get? (h : s.Holds good) (key : String) : (s.get? key).2.Holds good := by
  simp only [Segment.get?]
  split
  · split
    · exact h
    · next entry hentry =>
      split
      · exact h
      · intro other found
        exact h.insert (h key entry hentry) (s.clock + 1)
  · exact h

theorem Holds.dropEldest? {t : Segment α} (h : s.Holds good) (dropped : s.dropEldest? = some t) :
    t.Holds good := by
  obtain ⟨⟨stamp, eldest⟩, -, rfl⟩ := Option.map_eq_some_iff.mp dropped
  intro other entry found
  rw [Std.HashMap.getElem?_erase] at found
  split at found
  · cases found
  · exact h other entry found

theorem Holds.makeRoom (h : s.Holds good) (count : Nat) : (s.makeRoom count).Holds good := by
  induction count generalizing s with
  | zero => exact h
  | succ count ih =>
    rw [Segment.makeRoom]
    split
    · split
      · next t dropped => exact ih (h.dropEldest? dropped)
      · exact h
    · exact h

theorem Holds.put (h : s.Holds good) (hvalue : good key value) : (s.put key value).Holds good := by
  rw [Segment.put]
  split
  · next entry hentry =>
    intro other found
    exact h.insert hvalue entry.stamp
  · apply Holds.makeRoom
    intro other entry found
    exact h.insert hvalue (s.clock + 1) found

end Segment

namespace Striped

variable {c : Striped α}

/-- Every entry of every segment is in the relation. -/
def Holds (c : Striped α) (good : String → α → Prop) : Prop :=
  ∀ (i : Nat) (segment : Segment α), c.segments[i]? = some segment → segment.Holds good

theorem holds_empty (hash : String → Nat) (capacity count : Nat) :
    (empty hash capacity count : Striped α).Holds good := by
  intro i segment found
  obtain ⟨_, rfl⟩ := Array.getElem?_eq_some_iff.mp found
  simp only [empty, Array.getElem_ofFn]
  exact Segment.holds_empty _ _

theorem Holds.of_get? (h : c.Holds good) (found : (c.get? key).1 = some value) :
    good key value := by
  simp only [Striped.get?] at found
  split at found
  · cases found
  · next segment hsegment => exact (h _ segment hsegment).of_get? found

theorem Holds.get? (h : c.Holds good) (key : String) : (c.get? key).2.Holds good := by
  simp only [Striped.get?]
  split
  · exact h
  · next segment hsegment =>
    intro i other found
    rw [Array.set!_eq_setIfInBounds, Array.getElem?_setIfInBounds] at found
    split at found
    · split at found
      · cases found
        exact (h _ segment hsegment).get? key
      · cases found
    · exact h i other found

theorem Holds.put (h : c.Holds good) (hvalue : good key value) : (c.put key value).Holds good := by
  intro i segment found
  simp only [Striped.put, Array.getElem?_modify] at found
  split at found
  · obtain ⟨old, hold, rfl⟩ := Option.map_eq_some_iff.mp found
    exact (h i old hold).put hvalue
  · exact h i segment found

end Striped

variable {c : Cache α}

/-- Every entry of the cache is in the relation. -/
def Holds (c : Cache α) (good : String → α → Prop) : Prop :=
  match c with
  | bounded segment => segment.Holds good
  | striped stripes => stripes.Holds good

theorem Holds.of_get? (h : c.Holds good) (found : (c.get? key).1 = some value) :
    good key value := by
  cases c with
  | bounded segment => exact Segment.Holds.of_get? h found
  | striped stripes => exact Striped.Holds.of_get? h found

theorem Holds.get? (h : c.Holds good) (key : String) : (c.get? key).2.Holds good := by
  cases c with
  | bounded segment => exact Segment.Holds.get? h key
  | striped stripes => exact Striped.Holds.get? h key

theorem Holds.put (h : c.Holds good) (hvalue : good key value) : (c.put key value).Holds good := by
  cases c with
  | bounded segment => exact Segment.Holds.put h hvalue
  | striped stripes => exact Striped.Holds.put h hvalue

/-- A cache with room for an entry can be made, and has none yet. -/
theorem newBounded_holds {capacity : Nat} (positive : 0 < capacity) :
    ∃ c : Cache α, newBounded capacity = .ok c ∧ ∀ good, c.Holds good :=
  ⟨_, if_neg (Nat.ne_of_gt positive), fun _ => Segment.holds_empty capacity false⟩

/-- A striped cache that is made has no entries yet. -/
theorem newStriped_holds {hash : String → Nat} {capacity concurrency : Nat}
    (made : newStriped hash capacity concurrency = .ok c) (good : String → α → Prop) :
    c.Holds good := by
  obtain ⟨count, -, -, -, rfl⟩ := exists_count_of_newStriped made
  exact Striped.holds_empty hash capacity count

end ElTemplate.Cache
