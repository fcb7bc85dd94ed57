import ElTemplate.Proofs.Cache.Entries
import ElTemplate.Proofs.Cache.History

/-!
# How long striped caches keep a key

Every segment of a striped cache recalls the touches of its own keys, whatever happens to keys of
other segments in between. Only touches decide what is kept: a new value for a present key neither
evicts anything nor saves the key from eviction, and a present key has the value that was put last.
-/

namespace ElTemplate.Cache

variable {α : Type} {key : String} {value : α} {history : List String}

namespace Lineups

variable {r : Lineups α} {op : Operation α}

/-- Every lineup recalls the touches of its own keys. -/
def Recalls (r : Lineups α) (history : List String) : Prop :=
  ∀ i, (r.lineup i).Recalls (history.filter (r.place · = i))

theorem recalls_empty (hash : String → Nat) (capacity count : Nat) :
    (empty hash capacity count : Lineups α).Recalls [] :=
  fun _ => .empty _

/-- An operation on a key is an operation of the key's lineup, which answers it. -/
theorem perform_eq (r : Lineups α) (about : op.key? = some key) :
    touched? r op = touched? (r.lineup (r.place key)) op ∧
    (perform r op).2 =
      { r with
        lineup := Function.update r.lineup (r.place key)
          (perform (r.lineup (r.place key)) op).2 } := by
  cases op <;> cases about <;> exact ⟨rfl, rfl⟩

theorem Recalls.perform (h : r.Recalls history) (op : Operation α) :
    (perform r op).2.Recalls (history ++ (touched? r op).toList) := by
  cases about : op.key? with
  | none =>
    cases op with
    | size =>
      rw [touched?, Option.toList_none, List.append_nil]
      exact h
    | _ => cases about
  | some key =>
    obtain ⟨touched, state⟩ := r.perform_eq about
    rw [state]
    intro i
    change (Function.update r.lineup _ _ i).Recalls
      ((history ++ (touched? r op).toList).filter (r.place · = i))
    rw [List.filter_append]
    -- What is touched is the key, if anything.
    have only : ∀ k ∈ (touched? r op).toList, k = key := by
      intro k mem
      have same := key?_of_touched? (Option.mem_toList.mp mem)
      exact Option.some.inj (same.symm.trans about)
    by_cases here : i = r.place key
    · have all : (touched? r op).toList.filter (r.place · = i) = (touched? r op).toList :=
        List.filter_eq_self.mpr fun k mem => by simp [only k mem, here]
      rw [all, here, Function.update_self, touched]
      exact (h _).perform op
    · have none : (touched? r op).toList.filter (r.place · = i) = [] :=
        List.filter_eq_nil_iff.mpr fun k mem => by simp [only k mem, Ne.symm here]
      rw [none, List.append_nil, Function.update_of_ne here]
      exact h i

theorem Recalls.after (h : r.Recalls history) (ops : List (Operation α)) :
    (after r ops).Recalls (history ++ touches r ops) := by
  induction ops generalizing r history with
  | nil => rwa [touches, List.append_nil]
  | cons op ops ih =>
    rw [touches, ← List.append_assoc]
    exact ih (h.perform op)

/-- A key that is put has been touched: when it came in, at the latest. -/
theorem Recalls.mem_of_put (h : r.Recalls history) {ops : List (Operation α)}
    (mem : .put key value ∈ ops) : key ∈ history ++ touches r ops := by
  induction ops generalizing r history with
  | nil => cases mem
  | cons op ops ih =>
    rw [touches, ← List.append_assoc]
    rcases List.mem_cons.mp mem with rfl | later
    · refine List.mem_append_left _ ?_
      by_cases present : key ∈ (r.lineup (r.place key)).keys
      · exact List.mem_append_left _ (List.mem_filter.mp ((h _).mem_history present)).1
      · have absent : touched? r (.put key value) = some key := by
          have missing : ((r.lineup (r.place key)).get? key).1 = none := by
            simpa [Option.isSome_iff_ne_none] using mt Lineup.isSome_get?_iff.mp present
          exact if_pos (Option.isNone_iff_eq_none.mpr missing)
        simp [absent]
    · exact ih (h.perform op) later

/-- A key is present while fewer others of its lineup have been touched since its last touch than
there is room for entries. -/
theorem Recalls.isSome_iff {earlier later : List String} (h : r.Recalls (earlier ++ key :: later))
    (last : key ∉ later) :
    (r.get? key).1.isSome ↔ (later.filter (r.place · = r.place key)).dedup.length <
      (r.lineup (r.place key)).capacity := by
  have here := h (r.place key)
  rw [List.filter_append, List.filter_cons_of_pos (by simp)] at here
  exact here.isSome_iff (mt List.mem_of_mem_filter last)

@[simp] theorem capacity_perform (r : Lineups α) (op : Operation α) (i : Nat) :
    ((Cache.perform r op).2.lineup i).capacity = (r.lineup i).capacity := by
  cases about : op.key? with
  | none =>
    cases op with
    | size => rfl
    | _ => cases about
  | some key =>
    rw [(r.perform_eq about).2]
    change (Function.update r.lineup _ _ i).capacity = _
    by_cases here : i = r.place key
    · rw [here, Function.update_self, Lineup.perform_capacity]
    · rw [Function.update_of_ne here]

@[simp] theorem capacity_after (r : Lineups α) (ops : List (Operation α)) (i : Nat) :
    ((Cache.after r ops).lineup i).capacity = (r.lineup i).capacity := by
  induction ops generalizing r with
  | nil => rfl
  | cons op ops ih => exact (ih _).trans (r.capacity_perform op i)

/-- Replacing a value evicts nothing. -/
theorem isSome_put (present : (r.get? key).1.isSome) (value : α) (other : String) :
    ((r.put key value).get? other).1.isSome = (r.get? other).1.isSome := by
  have kept := Lineup.keys_put (Lineup.isSome_get?_iff.mp present) value
  have same : ((r.put key value).lineup (r.place other)).keys =
      (r.lineup (r.place other)).keys := by
    by_cases here : r.place other = r.place key
    · rw [here, r.lineup_put, kept]
    · exact congrArg Lineup.keys (Function.update_of_ne here _ _)
  rw [Bool.eq_iff_iff]
  exact Lineup.isSome_get?_iff.trans (same ▸ Lineup.isSome_get?_iff.symm)

end Lineups

/-- Replacing a value stamps nothing. -/
theorem Segment.order_put {s : Segment α} {entry : Entry α} (found : s.entries[key]? = some entry)
    (value : α) : (s.put key value).order = s.order := by
  rw [Segment.put, found]

theorem Segment.exists_entry {s : Segment α} (present : (s.get? key).1.isSome) :
    ∃ entry, s.entries[key]? = some entry := by
  cases found : s.entries[key]? with
  | some entry => exact ⟨entry, rfl⟩
  | none =>
    simp only [Segment.get?, found] at present
    split at present <;> cases present

theorem Striped.order_put {c : Striped α} (present : (c.get? key).1.isSome) (value : α) :
    (c.put key value).segments.map Segment.order = c.segments.map Segment.order := by
  apply Array.ext_getElem?
  intro i
  simp only [Striped.put, Array.getElem?_map, Array.getElem?_modify]
  split
  · next here =>
    subst here
    cases found : c.segments[c.index key]? with
    | none => rfl
    | some segment =>
      have read : (segment.get? key).1.isSome := by simpa [Striped.get?, found] using present
      obtain ⟨entry, held⟩ := Segment.exists_entry read
      simp only [Option.map_some, Segment.order_put held]
  · rfl

variable {c : Cache α} {r : Lineups α} {good : String → α → Prop}

/-- Replacing a value leaves the order of every segment. -/
theorem order_put (present : (c.get? key).1.isSome) (value : α) :
    (c.put key value).segments.map Segment.order = c.segments.map Segment.order := by
  cases c with
  | bounded segment =>
    obtain ⟨entry, held⟩ := Segment.exists_entry present
    simp only [Cache.put, segments, List.map_toArray, List.map_cons, List.map_nil,
      Segment.order_put held]
  | striped stripes => exact Striped.order_put present value

/-- What holds of all that is stored holds of the entries. -/
theorem holds_of_stores (h : ∀ key value, c.Stores key value → good key value) : c.Holds good := by
  cases c with
  | bounded segment =>
    intro key entry found
    exact h key entry.value ⟨segment, Array.mem_singleton.mpr rfl, entry, found, rfl⟩
  | striped stripes =>
    intro i segment there key entry found
    exact h key entry.value ⟨segment, Array.mem_of_getElem? there, entry, found, rfl⟩

theorem Holds.after (h : c.Holds good) {ops : List (Operation α)}
    (puts : ∀ key value, .put key value ∈ ops → good key value) : (after c ops).Holds good := by
  induction ops generalizing c with
  | nil => exact h
  | cons op ops ih =>
    have further := fun key value mem => puts key value (List.mem_cons_of_mem op mem)
    cases op with
    | get key => exact ih (h.get? key) further
    | put key value => exact ih (h.put (puts key value List.mem_cons_self)) further
    | size => exact ih h further

/-- A key has the value that was put last, or is gone. -/
theorem Shows.latest (h : c.Shows r) (tidy : r.Tidy) {ops : List (Operation α)}
    (last : ∀ other, .put key other ∉ ops)
    (present : ((Cache.after (c.put key value) ops).get? key).1.isSome) :
    ((Cache.after (c.put key value) ops).get? key).1 = some value := by
  have put := h.stores_put tidy key value
  have next := shows_simulation.put h key value
  have fresh : (c.put key value).Holds fun other held => other = key → held = value := by
    refine holds_of_stores fun other held stored same => ?_
    subst same
    have found := (next.get?_eq_some_iff (tidy.put other value)).mpr stored
    rw [(next.get?_eq_some_iff (tidy.put other value)).mpr put] at found
    exact (Option.some.inj found).symm
  obtain ⟨held, found⟩ := Option.isSome_iff_exists.mp present
  have kept := fresh.after fun other held mem same => absurd (same ▸ mem) (last held)
  rw [found, kept.of_get? found rfl]

/-- A striped cache for up to `2 ^ 63` callers keeps a key exactly while fewer others of its segment
have been touched since the key's last touch than the segment has room for entries. Replacing the
value of a present key touches nothing, evicts nothing and leaves the order of all segments, and
what is present has the value that was put last. -/
theorem striped_retains (hash : String → Nat) {capacity concurrency : Nat}
    (positive : 0 < capacity) (few : concurrency ≤ 2 ^ 63) :
    ∃ (c : Cache α) (count : Nat), newStriped hash capacity concurrency = .ok c ∧
      Striped.segmentCount? capacity concurrency = some count ∧ ∀ ops,
      let now := after c ops
      let place := fun key => hash key % count
      (∀ key value, .put key value ∈ ops →
        ∃ earlier later, touches c ops = earlier ++ key :: later ∧ key ∉ later ∧
          ((now.get? key).1.isSome ↔ (later.filter (place · = place key)).dedup.length <
            Striped.share capacity count (place key))) ∧
      (∀ key value, (now.get? key).1.isSome →
        touched? now (.put key value) = none ∧
        (∀ other, ((now.put key value).get? other).1.isSome = (now.get? other).1.isSome) ∧
        (now.put key value).segments.map Segment.order = now.segments.map Segment.order) ∧
      ∀ before key value behind, ops = before ++ .put key value :: behind →
        (∀ other, .put key other ∉ behind) → (now.get? key).1.isSome →
        (now.get? key).1 = some value := by
  obtain ⟨c, made⟩ := (exists_newStriped_iff hash positive).mpr few
  obtain ⟨count, counted, some, fits, rfl⟩ := exists_count_of_newStriped made
  have shows : Shows (.striped (.empty hash capacity count))
      (.empty hash capacity count : Lineups α) :=
    Striped.Refines.empty hash capacity some
  have recalls := Lineups.recalls_empty (α := α) hash capacity count
  refine ⟨_, count, made, counted, fun ops => ?_⟩
  intro now place
  have related : now.Shows (after _ ops) := shows_simulation.after shows ops
  have found (key : String) := (shows_simulation.get? related key).1
  refine ⟨?_, ?_, ?_⟩
  · intro key value mem
    have touched := shows_simulation.touches_eq shows ops
    obtain ⟨earlier, later, split, last⟩ := exists_last (recalls.mem_of_put mem)
    have recalled := recalls.after ops
    rw [split] at recalled
    refine ⟨earlier, later, touched.trans split, last, ?_⟩
    have iff := recalled.isSome_iff last
    simp only [Lineups.place_after, Lineups.capacity_after] at iff
    rw [show (now.get? key).1 = _ from found key]
    exact iff
  · intro key value present
    refine ⟨if_neg ?_, fun other => ?_, order_put present value⟩
    · exact mt Option.isNone_iff_eq_none.mp (Option.isSome_iff_ne_none.mp present)
    · have next := (shows_simulation.get? (shows_simulation.put related key value) other).1
      have kept := Lineups.isSome_put (found key ▸ present) value other
      exact (congrArg Option.isSome next).trans
        (kept.trans (congrArg Option.isSome (found other)).symm)
  · rintro before key value behind rfl last present
    have earlier := shows_simulation.after shows before
    have tidy := (Lineups.tidy_empty (α := α) hash some fits).after before
    simp only [now, after_append] at present ⊢
    exact earlier.latest tidy last present

/-- With room for two, a read saves a key and a new value does not: the other key is forgotten. -/
theorem striped_retains_two : 0 < 2 ∧ 1 ≤ 2 ^ 63 ∧
    ∃ c : Cache Nat, newStriped String.length 2 1 = .ok c ∧
    let ops := [.put "a" 1, .put "b" 2, .get "a", .put "b" 3, .put "c" 4]
    touches c ops = ["a", "b", "a", "c"] ∧
    ((after c ops).get? "a").1 = some 1 ∧ ((after c ops).get? "b").1 = none := by
  obtain ⟨c, count, made, counted, retains⟩ :=
    striped_retains (α := Nat) String.length (show 0 < 2 by decide) (show 1 ≤ 2 ^ 63 by decide)
  obtain rfl : 1 = count := Option.some.inj counted
  have shows : Shows (.striped (.empty String.length 2 1))
      (.empty String.length 2 1 : Lineups Nat) :=
    Striped.Refines.empty String.length 2 (by decide)
  obtain rfl : striped (.empty String.length 2 1) = c := Except.ok.inj made
  refine ⟨by decide, by decide, _, made, ?_⟩
  intro ops
  obtain ⟨present, -, latest⟩ := retains ops
  have touched : touches (.striped (.empty String.length 2 1) : Cache Nat) ops =
      ["a", "b", "a", "c"] := by
    rw [shows_simulation.touches_eq shows]
    decide +kernel
  have recent : ["a", "b", "a", "c"].dedup = ["b", "a", "c"] := by decide
  refine ⟨touched, ?_, ?_⟩
  · obtain ⟨earlier, later, split, last, kept⟩ := present "a" 1 (by decide)
    rw [touched] at split
    have order : (earlier ++ "a" :: later).dedup = ["b"] ++ "a" :: ["c"] := split ▸ recent
    have behind := dedup_behind last order
    simp only [Nat.mod_one, decide_true, List.filter_true, ← behind] at kept
    exact latest [] "a" 1 _ rfl (by simp) (kept.mpr (by decide))
  · obtain ⟨earlier, later, split, last, kept⟩ := present "b" 3 (by decide)
    rw [touched] at split
    have order : (earlier ++ "b" :: later).dedup = [] ++ "b" :: ["a", "c"] := split ▸ recent
    have behind := dedup_behind last order
    simp only [Nat.mod_one, decide_true, List.filter_true, ← behind] at kept
    exact Option.not_isSome_iff_eq_none.mp (mt kept.mp (by decide))

end ElTemplate.Cache
