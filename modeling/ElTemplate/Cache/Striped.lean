import ElTemplate.Cache.Segment
import ElTemplate.Number.Core

/-!
# Striped caches

A striped cache spreads its keys over several segments by a hash, so that parallel callers seldom
meet. Each segment evicts by recency on its own. The capacities of the segments add up to the
capacity of the cache and differ by at most one.
-/

namespace ElTemplate.Cache

/-- Segments and the hash that chooses among them. -/
structure Striped (α : Type) where
  segments : Array (Segment α)
  hash : String → Nat

namespace Striped

variable {α : Type}

open scoped CoreInstances

/-- The exponent of the least power of two that is no less than the number, if a word of 64 bits
holds that power. -/
def exponent? (n : Nat) : Option Nat :=
  (List.range 64).find? fun e => n ≤ 2 ^ e

/-- The number of segments for an expected number of parallel callers: a power of two, but no more
than there is room for entries. Rounding up to the power may overflow. -/
def segmentCount? (capacity concurrency : Nat) : Option Nat :=
  (exponent? (max concurrency 1)).map fun e => min (2 ^ e) capacity

/-- The capacity of a segment: an equal share, and one more for the first few. -/
def share (capacity count index : Nat) : Nat :=
  capacity / count + if index < capacity % count then 1 else 0

/-- A striped cache of so many segments without entries. -/
def empty (hash : String → Nat) (capacity count : Nat) : Striped α :=
  ⟨Array.ofFn fun index : Fin count => Segment.empty (share capacity count index) true, hash⟩

/-- The index of a key's segment. -/
def index (c : Striped α) (key : String) : Nat :=
  c.hash key % c.segments.size

/-- The total of a measure over the segments. -/
def total (c : Striped α) (measure : Segment α → Nat) : Nat :=
  (c.segments.map measure).sum

def capacity (c : Striped α) : Nat :=
  c.total Segment.capacity

def size (c : Striped α) : Nat :=
  c.total Segment.size

def get? (c : Striped α) (key : String) : Option α × Striped α :=
  match c.segments[c.index key]? with
  | none => (none, c)
  | some segment =>
    let (value, segment) := segment.get? key
    (value, { c with segments := c.segments.set! (c.index key) segment })

def put (c : Striped α) (key : String) (value : α) : Striped α :=
  { c with segments := c.segments.modify (c.index key) (·.put key value) }

end Striped

end ElTemplate.Cache
