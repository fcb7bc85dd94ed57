import ElTemplate.Cache.Basic
import ElTemplate.Parser.Template
import ElTemplate.Settings.Basic

/-!
# Template stores

A store compiles templates through a cache, so that a text that is still cached is not compiled
again. Texts that do not compile leave no trace.
-/

namespace ElTemplate

/-- A builder of templates with a cache in front of it. -/
structure Store where
  build : String → Except CompileError Template
  cache : Cache Template
  /-- How often the builder has been used. -/
  builds : Nat

namespace Store

/-- A store that has built nothing. -/
def new (build : String → Except CompileError Template) (cache : Cache Template) : Store :=
  ⟨build, cache, 0⟩

/-- The store for settings. One caller, or none, gets the cache with a single segment. -/
def ofSettings (hash : String → Nat) (settings : Settings) : Except Cache.Failure Store := do
  let settings ← settings.validate.mapError .refused
  let cache ←
    if settings.concurrency ≤ 1 then Cache.newBounded settings.cacheCapacity
    else Cache.newStriped hash settings.cacheCapacity settings.concurrency
  return new (Template.compile (.ofList settings.features)) cache

/-- The cached template of a text, or else a freshly built one, which is then cached. -/
def compile (s : Store) (source : String) : Except CompileError Template × Store :=
  match s.cache.get? source with
  | (some template, cache) => (.ok template, { s with cache })
  | (none, cache) =>
    let s := { s with cache, builds := s.builds + 1 }
    match s.build source with
    | .ok template => (.ok template, { s with cache := s.cache.put source template })
    | .error e => (.error e, s)

/-- The cached template of a text, if there is one. -/
def cached? (s : Store) (source : String) : Option Template × Store :=
  let (template, cache) := s.cache.get? source
  (template, { s with cache })

end Store

end ElTemplate
