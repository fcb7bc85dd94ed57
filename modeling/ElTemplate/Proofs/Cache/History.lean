import ElTemplate.Proofs.Cache.Contents
import ElTemplate.Proofs.Cache.Insertion
import Mathlib.Data.List.Lattice

/-!
# The keys that were touched last

An operation touches a key if it brings it in, or reads it while it is present. A lineup that
refreshes on reading holds the keys that were touched last, in the order of their last touches, and
it is full once it has forgotten one. So a key is present exactly while fewer other keys have been
touched since its own last touch than there is room for entries.
-/

namespace ElTemplate.Cache

section Touches

variable {α σ τ : Type} [Keeper σ α] [Keeper τ α]

/-- The key that an operation touches: one that it brings in, or reads while it is present. -/
def touched? (s : σ) : Operation α → Option String
  | .put key _ => if (Keeper.get? s key).1.isNone then some key else none
  | .get key => if (Keeper.get? s key).1.isSome then some key else none
  | .size => none

/-- The keys that operations touch, in order. -/
def touches (s : σ) : List (Operation α) → List String
  | [] => []
  | op :: ops => (touched? s op).toList ++ touches (perform s op).2 ops

variable {R : σ → τ → Prop} {s : σ} {t : τ}

theorem Simulation.touched?_eq (h : Simulation R) (related : R s t) (op : Operation α) :
    touched? s op = touched? t op := by
  cases op with
  | put key value => simp only [touched?, (h.get? related key).1]
  | get key => simp only [touched?, (h.get? related key).1]
  | size => rfl

theorem Simulation.touches_eq (h : Simulation R) (related : R s t) (ops : List (Operation α)) :
    touches s ops = touches t ops := by
  induction ops generalizing s t with
  | nil => rfl
  | cons op ops ih =>
    simp only [touches, h.touched?_eq related op, ih (h.perform related op).2]

theorem key?_of_touched? {op : Operation α} {key : String} (h : touched? s op = some key) :
    op.key? = some key := by
  cases op <;> grind [touched?, Operation.key?]

end Touches

section History

variable {history earlier later : List String} {key : String}

/-- What is touched again moves to the end of the keys in the order of their last touches. -/
theorem dedup_concat (history : List String) (key : String) :
    (history ++ [key]).dedup = history.dedup.erase key ++ [key] := by
  induction history with
  | nil => simp
  | cons first rest ih =>
    by_cases again : first ∈ rest
    · rw [List.cons_append, List.dedup_cons_of_mem (List.mem_append_left _ again), ih,
        List.dedup_cons_of_mem again]
    · rw [List.dedup_cons_of_notMem again]
      by_cases same : first = key
      · subst same
        rw [List.cons_append, List.dedup_cons_of_mem (List.mem_append_right _ (by simp)), ih,
          List.erase_cons_head, List.erase_of_not_mem (mt List.mem_dedup.mp again)]
      · rw [List.cons_append, List.dedup_cons_of_notMem (by simp [again, same]), ih,
          List.erase_cons_tail (by simp [same]), List.cons_append]

/-- Behind a key stand those that were touched after its last touch. -/
theorem dedup_behind (last : key ∉ later) {before behind : List String}
    (split : (earlier ++ key :: later).dedup = before ++ key :: behind) :
    behind = later.dedup := by
  obtain ⟨ahead, -, joined⟩ := List.sublist_suffix_of_union earlier (key :: later).dedup
  rw [← List.dedup_append, List.dedup_cons_of_notMem last] at joined
  have once := joined ▸ List.nodup_dedup (earlier ++ key :: later)
  obtain ⟨-, nodup, apart⟩ := List.nodup_append.mp once
  have fresh : key ∉ ahead := fun mem => apart key mem key List.mem_cons_self rfl
  have unseen : key ∉ later.dedup := (List.nodup_cons.mp nodup).1
  exact ((List.append_cons_inj_of_notMem fresh unseen).mp (joined.trans split)).2.2.symm

theorem exists_last (mem : key ∈ history) :
    ∃ earlier later, history = earlier ++ key :: later ∧ key ∉ later := by
  obtain ⟨after, before, split, last⟩ :=
    List.eq_append_cons_of_mem (List.mem_reverse.mpr mem)
  refine ⟨before.reverse, after.reverse, ?_, mt List.mem_reverse.mp last⟩
  rw [← List.reverse_inj, split]
  simp

end History

variable {α : Type} {key : String} {value : α} {history : List String}

namespace Lineup

variable {l : Lineup α}

/-- The keys of the entries in order. -/
def keys (l : Lineup α) : List String :=
  l.entries.map Prod.fst

theorem lacks_iff : Lacks l.entries key ↔ key ∉ l.keys := by
  simp only [Lacks, keys, List.mem_map, not_exists, not_and]

theorem isSome_get?_iff : (l.get? key).1.isSome ↔ key ∈ l.keys := by
  rw [get?_fst, Option.isSome_iff_ne_none, Ne, lookup_eq_none_iff, lacks_iff, not_not]

theorem length_keys (l : Lineup α) : l.keys.length = l.size :=
  List.length_map _

/-- Replacing a value leaves the keys where they are. -/
theorem keys_put (present : key ∈ l.keys) (value : α) : (l.put key value).keys = l.keys := by
  have replaced : (l.put key value).entries =
      l.entries.map fun e => if e.1 = key then (key, value) else e := by
    rw [put]
    split
    · rfl
    · next absent => exact absurd present (lacks_iff.mp (lookup_eq_none_iff.mp absent))
  rw [keys, replaced, List.map_map]
  refine List.map_congr_left fun e _ => ?_
  by_cases same : e.1 = key <;> simp [same]

/-- The lineup refreshes on reading, and its keys are those that were touched last, in the order of
their last touches. If any have been forgotten, it is full. -/
structure Recalls (l : Lineup α) (history : List String) : Prop where
  refreshes : l.refreshOnRead = true
  bounded : l.size ≤ l.capacity
  recent : ∃ forgotten, history.dedup = forgotten ++ l.keys ∧
    (forgotten ≠ [] → l.size = l.capacity)

namespace Recalls

theorem empty (capacity : Nat) : (empty capacity true : Lineup α).Recalls [] :=
  ⟨rfl, Nat.zero_le _, [], rfl, fun some => absurd rfl some⟩

theorem nodup (h : l.Recalls history) : l.keys.Nodup := by
  obtain ⟨forgotten, recent, -⟩ := h.recent
  exact (List.nodup_append.mp (recent ▸ List.nodup_dedup history)).2.1

theorem mem_history (h : l.Recalls history) (present : key ∈ l.keys) : key ∈ history := by
  obtain ⟨forgotten, recent, -⟩ := h.recent
  rw [← List.mem_dedup, recent]
  exact List.mem_append_right _ present

/-- A key that is present moves to the end when it is read. -/
theorem get?_of_present (h : l.Recalls history) (present : key ∈ l.keys) :
    (l.get? key).2.Recalls (history ++ [key]) := by
  obtain ⟨value, found⟩ := Option.isSome_iff_exists.mp (isSome_get?_iff.mpr present)
  obtain ⟨before, behind, split, ahead⟩ := exists_split ((l.get?_fst key).symm.trans found)
  have keys : l.keys = before.map Prod.fst ++ key :: behind.map Prod.fst := by
    rw [Lineup.keys, split, List.map_append, List.map_cons]
  obtain ⟨refreshes, bounded, forgotten, recent, full⟩ := h
  have once := recent ▸ List.nodup_dedup history
  rw [keys, ← List.append_assoc] at recent once
  have beyond : Lacks behind key := by
    intro e mem same
    have apart := (List.nodup_cons.mp (List.nodup_append.mp once).2.1).1
    exact apart (same ▸ List.mem_map_of_mem mem)
  have fresh : key ∉ forgotten ++ before.map Prod.fst := by
    intro mem
    exact (List.nodup_append.mp once).2.2 key mem key List.mem_cons_self rfl
  rw [get?_of_split split ahead beyond, if_pos refreshes]
  have size : (before ++ behind ++ [(key, value)]).length = l.entries.length := by
    simp only [split, List.length_append, List.length_cons, List.length_nil]
    omega
  refine ⟨refreshes, size.trans_le bounded, forgotten, ?_, fun some => size.trans (full some)⟩
  rw [dedup_concat, recent, List.erase_append_right _ fresh, List.erase_cons_head]
  simp [Lineup.keys]

/-- A key that comes in stands at the end, and displaces the first one if there is no room. -/
theorem put_of_absent (h : l.Recalls history) (absent : key ∉ l.keys) (value : α) :
    (l.put key value).Recalls (history ++ [key]) := by
  obtain ⟨refreshes, bounded, forgotten, recent, full⟩ := h
  have later : (history ++ [key]).dedup = forgotten.erase key ++ (l.keys ++ [key]) := by
    rw [dedup_concat, recent, List.erase_append]
    split
    · rw [List.append_assoc]
    · next fresh =>
      rw [List.erase_of_not_mem absent, List.erase_of_not_mem fresh, List.append_assoc]
  rw [put_of_lacks (lacks_iff.mpr absent)]
  by_cases room : l.capacity < l.entries.length + 1
  · have size : l.entries.length = l.capacity := Nat.le_antisymm bounded (Nat.le_of_lt_succ room)
    obtain ⟨first, rest, joined⟩ :
        ∃ first rest, l.entries ++ [(key, value)] = first :: rest :=
      List.exists_cons_of_ne_nil (by simp)
    have length : rest.length = l.entries.length := by
      simpa using (congrArg List.length joined).symm
    have keys : l.keys ++ [key] = first.1 :: rest.map Prod.fst := by
      simpa [Lineup.keys] using congrArg (List.map Prod.fst) joined
    rw [if_pos room, joined, List.tail_cons]
    refine ⟨refreshes, (length.trans size).le, forgotten.erase key ++ [first.1], ?_,
      fun _ => length.trans size⟩
    rw [later, keys, List.append_assoc]
    rfl
  · rw [if_neg room]
    refine ⟨refreshes, ?_, forgotten.erase key, ?_, fun some => ?_⟩
    · simpa [Lineup.size] using Nat.not_lt.mp room
    · rw [later]
      simp [Lineup.keys]
    · have lost : forgotten ≠ [] := by
        rintro rfl
        exact some rfl
      have := full lost
      simp only [Lineup.size] at this
      omega

/-- Replacing a value touches nothing. -/
theorem put_of_present (h : l.Recalls history) (present : key ∈ l.keys) (value : α) :
    (l.put key value).Recalls history := by
  have keys := keys_put present value
  have size : (l.put key value).size = l.size := by
    rw [← length_keys, keys, length_keys]
  obtain ⟨refreshes, bounded, forgotten, recent, full⟩ := h
  refine ⟨(l.put_refreshOnRead key value).trans refreshes, ?_, forgotten, ?_, fun some => ?_⟩
  · rwa [size, put_capacity]
  · rw [keys, recent]
  · rw [size, put_capacity, full some]

/-- Every operation touches what it is said to touch. -/
theorem perform (h : l.Recalls history) (op : Operation α) :
    (perform l op).2.Recalls (history ++ (touched? l op).toList) := by
  cases op with
  | size =>
    rw [touched?, Option.toList_none, List.append_nil]
    exact h
  | get key =>
    by_cases present : key ∈ l.keys
    · have read : touched? l (.get key : Operation α) = some key :=
        if_pos (isSome_get?_iff.mpr present)
      rw [read]
      exact h.get?_of_present present
    · have none : touched? l (.get key : Operation α) = none :=
        if_neg (mt isSome_get?_iff.mp present)
      rw [none, Option.toList_none, List.append_nil]
      have same : (Cache.perform l (.get key)).2 = l :=
        congrArg Prod.snd (get?_of_lacks (lacks_iff.mpr present))
      rwa [same]
  | put key value =>
    have inserts : (Keeper.get? l key).1.isNone ↔ key ∉ l.keys := by
      rw [← isSome_get?_iff, Bool.not_eq_true, Option.isSome_eq_false_iff]
      rfl
    by_cases present : key ∈ l.keys
    · have none : touched? l (.put key value) = none := if_neg (by simp [inserts, present])
      rw [none, Option.toList_none, List.append_nil]
      exact h.put_of_present present value
    · have new : touched? l (.put key value) = some key := if_pos (inserts.mpr present)
      rw [new]
      exact h.put_of_absent present value

/-- A key is present while fewer others have been touched since its last touch than there is room
for entries. -/
theorem isSome_iff {earlier later : List String} (h : l.Recalls (earlier ++ key :: later))
    (last : key ∉ later) : (l.get? key).1.isSome ↔ later.dedup.length < l.capacity := by
  obtain ⟨-, bounded, forgotten, recent, full⟩ := h
  rw [← length_keys] at bounded full
  rw [isSome_get?_iff]
  constructor
  · intro present
    obtain ⟨before, behind, keys⟩ := List.append_of_mem present
    rw [keys, ← List.append_assoc] at recent
    rw [← dedup_behind last recent]
    rw [keys, List.length_append, List.length_cons] at bounded
    omega
  · intro few
    by_contra absent
    have lost : key ∈ forgotten := by
      have listed : key ∈ (earlier ++ key :: later).dedup := by simp
      rw [recent] at listed
      exact (List.mem_append.mp listed).resolve_right absent
    obtain ⟨before, behind, rfl⟩ := List.append_of_mem lost
    have size := full (by simp)
    rw [List.append_assoc, List.cons_append] at recent
    rw [← dedup_behind last recent, List.length_append] at few
    omega

end Recalls

end Lineup

end ElTemplate.Cache
