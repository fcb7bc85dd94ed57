import ElTemplate.Number.Core
import ElTemplate.Settings.Error
import ElTemplate.Template.Feature

/-!
# Settings

How many compiled templates are kept, for how many parallel callers, and which language features
are enabled.
-/

namespace ElTemplate

/-- The feature that a text names, with white space around the name. -/
def Feature.read (text : String) : Except ConfigError Feature :=
  match ofName? (Text.trim text) with
  | some feature => .ok feature
  | none => .error (.unknownFeature (Text.trim text))

/-- The features that texts name, or the error of the first that names none. -/
def Feature.readAll : List String → Except ConfigError (List Feature)
  | [] => .ok []
  | text :: rest =>
    match read text with
    | .error e => .error e
    | .ok feature =>
      match readAll rest with
      | .error e => .error e
      | .ok features => .ok (feature :: features)

/-- Settings of a template store. -/
structure Settings where
  /-- The largest number of templates to keep. -/
  cacheCapacity : Nat
  /-- The number of parallel callers to expect. -/
  concurrency : Nat
  /-- The enabled features as they were listed. -/
  features : List Feature
deriving DecidableEq, Repr

namespace Settings

open scoped CoreInstances

/-- The settings where nothing else is said. -/
def default : Settings :=
  ⟨1000, 16, []⟩

/-- The largest number that a setting can have. -/
def maxNumber : Nat :=
  2 ^ (64 : Nat) - 1

/-- Refuse settings that no store can have. -/
def validate (s : Settings) : Except ConfigError Settings :=
  if s.cacheCapacity = 0 then .error .zeroCacheCapacity else .ok s

end Settings

end ElTemplate
