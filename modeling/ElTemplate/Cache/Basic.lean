import ElTemplate.Cache.Striped
import ElTemplate.Settings.Error

/-!
# Caches

A cache is either a single segment that evicts in order of insertion, or a striped one.
-/

namespace ElTemplate

/-- A bounded cache of values under texts. -/
inductive Cache (α : Type) where
  /-- One segment; reading does not keep an entry alive. -/
  | bounded (segment : Cache.Segment α)
  /-- Many segments, each of which drops what was not read for the longest time. -/
  | striped (stripes : Cache.Striped α)

namespace Cache

/-- Why there is no cache. -/
inductive Failure where
  /-- What is asked for is refused. -/
  | refused (e : ConfigError)
  /-- The number of segments does not fit a word, and the program stops. -/
  | overflow
deriving DecidableEq, Repr

variable {α : Type}

/-- A cache that evicts in order of insertion. -/
def newBounded (capacity : Nat) : Except Failure (Cache α) :=
  if capacity = 0 then .error (.refused .emptyCache) else .ok (.bounded (.empty capacity false))

/-- A cache for an expected number of parallel callers. -/
def newStriped (hash : String → Nat) (capacity concurrency : Nat) : Except Failure (Cache α) :=
  if capacity = 0 then .error (.refused .emptyCache)
  else
    match Striped.segmentCount? capacity concurrency with
    | some count => .ok (.striped (.empty hash capacity count))
    | none => .error .overflow

def get? (c : Cache α) (key : String) : Option α × Cache α :=
  match c with
  | bounded segment =>
    let (value, segment) := segment.get? key
    (value, bounded segment)
  | striped stripes =>
    let (value, stripes) := stripes.get? key
    (value, striped stripes)

/-- Bring in a value, or replace the one under its key. -/
def put (c : Cache α) (key : String) (value : α) : Cache α :=
  match c with
  | bounded segment => bounded (segment.put key value)
  | striped stripes => striped (stripes.put key value)

/-- The number of entries. -/
def size : Cache α → Nat
  | bounded segment => segment.size
  | striped stripes => stripes.size

def capacity : Cache α → Nat
  | bounded segment => segment.capacity
  | striped stripes => stripes.capacity

/-- The number of segments of a striped cache. -/
def segmentCount? : Cache α → Option Nat
  | bounded _ => none
  | striped stripes => some stripes.segments.size

end Cache

end ElTemplate
