import ElTemplate.Number.Digits
import ElTemplate.Settings.Basic

/-!
# Settings from environment variables

Three variables override the defaults. Numbers may have white space around them and a plus sign;
features are separated by commas, and blank items between commas count for nothing. The capacity is
read first, then the concurrency, then the features; that the capacity is positive is checked last.
-/

namespace ElTemplate.Settings

/-- The number in a text: an optional plus sign and digits, up to the largest setting. -/
def readNumber? (cs : List Char) : Option Nat :=
  let digits := match cs with
    | '+' :: rest => rest
    | _ => cs
  (Digits.toNat? digits).filter (· ≤ maxNumber)

/-- The number that a variable is set to, or the default if it is not set. -/
def numberVariable (lookup : String → Option String) (key : String) (otherwise : Nat) :
    Except ConfigError Nat :=
  match lookup key with
  | none => .ok otherwise
  | some value =>
    match readNumber? (Text.trimChars value.toList) with
    | some n => .ok n
    | none => .error (.notANumber key value)

/-- The items of a comma-separated list that are not blank. -/
def listItems (value : String) : List String :=
  ((value.toList.splitOn ',').filter fun item => !item.all Text.isBlank).map String.ofList

/-- The features that a variable lists. -/
def featuresVariable (lookup : String → Option String) (key : String) :
    Except ConfigError (List Feature) :=
  match lookup key with
  | none => .ok default.features
  | some value => Feature.readAll (listItems value)

/-- The settings under an environment. -/
def ofEnvironment (lookup : String → Option String) : Except ConfigError Settings := do
  let cacheCapacity ← numberVariable lookup "EL_CACHE_CAPACITY" default.cacheCapacity
  let concurrency ← numberVariable lookup "EL_CACHE_CONCURRENCY" default.concurrency
  let features ← featuresVariable lookup "EL_FEATURES"
  validate ⟨cacheCapacity, concurrency, features⟩

end ElTemplate.Settings
