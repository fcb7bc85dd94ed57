import ElTemplate.Command.Run

/-!
# The command line program

Reads the environment and the configuration file, runs the command line, and prints.
-/

open ElTemplate ElTemplate.CommandLine

/-- The content of a file, if it can be read as text. -/
def readFile? (path : String) : IO (Option String) := do
  try
    return some (← IO.FS.readFile path)
  catch _ =>
    return none

def main (arguments : List String) : IO UInt32 := do
  let keys := ["EL_CACHE_CAPACITY", "EL_CACHE_CONCURRENCY", "EL_FEATURES"]
  let values ← keys.mapM fun key => return (key, ← IO.getEnv key)
  let content ← match understand arguments with
    | .ok ⟨some path, _⟩ => readFile? path
    | _ => pure none
  let host : Host :=
    { hash := fun key => (hash key).toNat
      environment := fun key => (values.lookup key).join
      file := fun _ => content
      understand
      format := .yaml }
  let outcome := run host arguments
  IO.print outcome.output
  IO.eprint outcome.complaint
  return outcome.code
