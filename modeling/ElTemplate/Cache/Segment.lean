import Std.Data.HashMap
import Std.Data.TreeMap

/-!
# Cache segments

A segment keeps a bounded number of entries. Every entry carries the time at which it was last
stamped, and a second map leads from stamps back to keys, so that the entry with the oldest stamp
is found when room is needed. An entry is stamped when it comes in and, if the segment refreshes on
read, whenever it is read. Replacing a value does not stamp it again.
-/

namespace ElTemplate

namespace Cache

/-- A cached value and its stamp. -/
structure Entry (α : Type) where
  value : α
  stamp : Nat

/-- A bounded map from texts to values. -/
structure Segment (α : Type) where
  capacity : Nat
  refreshOnRead : Bool
  entries : Std.HashMap String (Entry α)
  /-- The keys by stamp. -/
  order : Std.TreeMap Nat String
  /-- The latest stamp that was given. -/
  clock : Nat

namespace Segment

variable {α : Type}

/-- A segment without entries. -/
def empty (capacity : Nat) (refreshOnRead : Bool) : Segment α :=
  ⟨capacity, refreshOnRead, ∅, ∅, 0⟩

/-- The number of entries. -/
def size (s : Segment α) : Nat :=
  s.entries.size

/-- The value of a key, and the segment after it has been read. Where reading refreshes, the clock
goes on even if the key is absent. -/
def get? (s : Segment α) (key : String) : Option α × Segment α :=
  if s.refreshOnRead then
    let stamp := s.clock + 1
    let s := { s with clock := stamp }
    match s.entries[key]? with
    | none => (none, s)
    | some entry =>
      match s.order[entry.stamp]? with
      | none => (none, s)
      | some owner =>
        (some entry.value,
          { s with
            entries := s.entries.insert key { entry with stamp }
            order := (s.order.erase entry.stamp).insert stamp owner })
  else
    (s.entries[key]?.map Entry.value, s)

/-- Drop the entry with the oldest stamp. -/
def dropEldest? (s : Segment α) : Option (Segment α) :=
  s.order.minEntry?.map fun (stamp, key) =>
    { s with entries := s.entries.erase key, order := s.order.erase stamp }

/-- Drop the eldest entries, at most `count` of them, while there are more than the capacity. -/
def makeRoom : Nat → Segment α → Segment α
  | 0, s => s
  | count + 1, s =>
    if s.capacity < s.size then
      match s.dropEldest? with
      | some s => makeRoom count s
      | none => s
    else s

/-- Replace the value of a key in its place, or bring in a new key and drop what is too much. -/
def put (s : Segment α) (key : String) (value : α) : Segment α :=
  match s.entries[key]? with
  | some entry => { s with entries := s.entries.insert key { entry with value } }
  | none =>
    let stamp := s.clock + 1
    let s :=
      { s with
        clock := stamp
        entries := s.entries.insert key ⟨value, stamp⟩
        order := s.order.insert stamp key }
    s.makeRoom s.size

end Segment

end Cache

end ElTemplate
