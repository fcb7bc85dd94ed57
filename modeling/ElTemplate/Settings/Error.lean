/-!
# Configuration errors

Values that a configuration, an environment variable or a cache does not take.
-/

namespace ElTemplate

inductive ConfigError where
  /-- The value of a variable that should be a number. -/
  | notANumber (key value : String)
  | unknownFeature (name : String)
  /-- A configuration asks for a cache without room. -/
  | zeroCacheCapacity
  /-- A cache is made without room. -/
  | emptyCache
deriving DecidableEq, Repr

namespace ConfigError

/-- What is wrong, in words. -/
def detail : ConfigError → String
  | notANumber key value => key ++ " must be a number, got '" ++ value ++ "'"
  | unknownFeature name => "unknown feature '" ++ name ++ "'"
  | zeroCacheCapacity => "cache_capacity must be positive"
  | emptyCache => "cache capacity must be positive"

def message (e : ConfigError) : String :=
  "Configuration error: " ++ e.detail

end ConfigError

end ElTemplate
