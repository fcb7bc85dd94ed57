/-!
# Inventories

The distinct names that a template uses, in the order in which they were first registered. The
index of an entry never changes once it is there.
-/

namespace ElTemplate

/-- Distinct entries in order of registration. -/
structure Inventory (α : Type) where
  entries : Array α
deriving Repr

namespace Inventory

variable {α : Type}

/-- No entries. -/
def empty : Inventory α :=
  ⟨#[]⟩

def toList (inventory : Inventory α) : List α :=
  inventory.entries.toList

@[simp] theorem toList_empty : (empty : Inventory α).toList = [] := rfl

variable [DecidableEq α]

/-- The index of an entry, which is added at the end if it is new. -/
def register (inventory : Inventory α) (entry : α) : Nat × Inventory α :=
  let index := inventory.entries.idxOf entry
  if index < inventory.entries.size then (index, inventory)
  else (index, ⟨inventory.entries.push entry⟩)

theorem register_fst (inventory : Inventory α) (entry : α) :
    (inventory.register entry).1 = inventory.toList.idxOf entry := by
  obtain ⟨⟨entries⟩⟩ := inventory
  simp only [register, toList, List.idxOf_toArray]
  split <;> rfl

theorem toList_register_snd (inventory : Inventory α) (entry : α) :
    (inventory.register entry).2.toList =
      if entry ∈ inventory.toList then inventory.toList else inventory.toList ++ [entry] := by
  obtain ⟨⟨entries⟩⟩ := inventory
  simp only [register, toList, List.idxOf_toArray, List.size_toArray, List.idxOf_lt_length_iff]
  split <;> simp [*]

end Inventory

end ElTemplate
