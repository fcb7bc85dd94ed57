import ElTemplate.Template.Inventory
import Mathlib.Data.List.Induction
import Mathlib.Data.List.Nodup

/-!
# Registering several entries

Registering entries one after the other keeps what is there and adds what is new at the end, each
entry once and in the order in which they first come. So an entry keeps its index for good, and two
groups of entries merge to the first one and what is new in the second.
-/

namespace ElTemplate.Inventory

section Lists

variable {α β : Type} [DecidableEq α] [DecidableEq β]

theorem eraseDups_concat (xs : List α) (x : α) :
    (xs ++ [x]).eraseDups = if x ∈ xs then xs.eraseDups else xs.eraseDups ++ [x] := by
  rw [List.eraseDups_append]
  by_cases present : x ∈ xs <;> simp [List.removeAll, present, List.eraseDups_cons]

/-- A function that keeps entries apart keeps which of them come first. -/
theorem eraseDups_map {f : α → β} (inj : Function.Injective f) (xs : List α) :
    (xs.map f).eraseDups = xs.eraseDups.map f := by
  induction xs using List.reverseRecOn with
  | nil => rfl
  | append_singleton xs x ih =>
    rw [List.map_append, List.map_singleton, eraseDups_concat, eraseDups_concat, ih]
    simp only [List.mem_map_of_injective inj]
    split
    · rfl
    · rw [List.map_append, List.map_singleton]

theorem idxOf_map {f : α → β} (inj : Function.Injective f) (xs : List α) (x : α) :
    (xs.map f).idxOf (f x) = xs.idxOf x := by
  induction xs with
  | nil => rfl
  | cons y ys ih =>
    have same : (f y == f x) = (y == x) := by
      rw [Bool.eq_iff_iff, beq_iff_eq, beq_iff_eq, inj.eq_iff]
    rw [List.map_cons, List.idxOf_cons, List.idxOf_cons, same, ih]

/-- An entry stands at its place, and only there. -/
theorem getElem?_eq_some_iff_idxOf {entries : List α}
    (nodup : entries.Nodup) {entry : α} {index : Nat} :
    entries[index]? = some entry ↔ entry ∈ entries ∧ index = entries.idxOf entry := by
  rw [List.getElem?_eq_some_iff]
  constructor
  · rintro ⟨bound, rfl⟩
    exact ⟨List.getElem_mem bound, (nodup.idxOf_getElem index bound).symm⟩
  · rintro ⟨member, rfl⟩
    exact ⟨List.idxOf_lt_length_of_mem member, List.getElem_idxOf _⟩

end Lists

variable {α : Type} [DecidableEq α]

/-- The inventory after the entries have been registered one after the other. -/
def registerAll (inventory : Inventory α) (entries : List α) : Inventory α :=
  entries.foldl (fun inventory entry => (inventory.register entry).2) inventory

variable {inventory : Inventory α} (entries further : List α)

@[simp] theorem registerAll_nil : inventory.registerAll [] = inventory := rfl

theorem registerAll_append : inventory.registerAll (entries ++ further) =
    (inventory.registerAll entries).registerAll further :=
  List.foldl_append

theorem registerAll_singleton (entry : α) :
    inventory.registerAll [entry] = (inventory.register entry).2 := rfl

/-- What is new comes behind what is there, each entry once. -/
theorem toList_registerAll : (inventory.registerAll entries).toList =
    inventory.toList ++ entries.eraseDups.filter (· ∉ inventory.toList) := by
  induction entries using List.reverseRecOn with
  | nil => simp
  | append_singleton entries entry ih =>
    rw [registerAll_append, registerAll_singleton, toList_register_snd, ih, eraseDups_concat]
    by_cases old : entry ∈ inventory.toList <;> by_cases again : entry ∈ entries <;>
      simp [old, again, List.filter_append]

theorem prefix_registerAll : inventory.toList <+: (inventory.registerAll entries).toList := by
  rw [toList_registerAll]
  exact List.prefix_append _ _

theorem prefix_register (entry : α) : inventory.toList <+: (inventory.register entry).2.toList :=
  prefix_registerAll [entry]

/-- An entry keeps its index, whatever is registered later. -/
theorem register_fst_of_prefix {entry : α} {final : List α}
    (h : (inventory.register entry).2.toList <+: final) :
    (inventory.register entry).1 = final.idxOf entry := by
  have member : entry ∈ (inventory.register entry).2.toList := by
    rw [toList_register_snd]
    split
    · next present => exact present
    · exact List.mem_append_right _ (List.mem_singleton_self entry)
  rw [register_fst, ← h.idxOf_eq_of_mem member, toList_register_snd]
  split
  · rfl
  · next new =>
    rw [List.idxOf_append_of_notMem new, List.idxOf_cons_self, Nat.add_zero,
      List.idxOf_eq_length_iff.mpr new]

theorem toList_empty_registerAll : (empty.registerAll entries).toList = entries.eraseDups := by
  simp [toList_registerAll]

/-- Registered behind others, entries come without those that are there already. -/
theorem toList_registerAll_behind : (inventory.registerAll entries).toList =
    inventory.toList ++ (empty.registerAll entries).toList.filter (· ∉ inventory.toList) := by
  rw [toList_registerAll, toList_empty_registerAll]

theorem nodup_register_snd (nodup : inventory.toList.Nodup) (entry : α) :
    (inventory.register entry).2.toList.Nodup := by
  rw [toList_register_snd]
  split
  · exact nodup
  · next new =>
    rw [← List.concat_eq_append]
    exact nodup.concat new

/-- Registering makes no duplicates. -/
theorem nodup_registerAll (nodup : inventory.toList.Nodup) :
    (inventory.registerAll entries).toList.Nodup := by
  induction entries generalizing inventory with
  | nil => exact nodup
  | cons entry entries ih => exact ih (nodup_register_snd nodup entry)

theorem nodup_eraseDups : entries.eraseDups.Nodup := by
  rw [← toList_empty_registerAll]
  exact nodup_registerAll entries List.nodup_nil

end ElTemplate.Inventory
