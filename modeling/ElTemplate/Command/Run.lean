import ElTemplate.Command.Arguments
import ElTemplate.Command.Report
import ElTemplate.Settings.Environment
import ElTemplate.Settings.Yaml

/-!
# Running commands

How a command line ends, given what the program finds around it: the environment, the files, a
reader of arguments and a format of configurations. Settings come from the named file alone, or else
from the environment.
-/

namespace ElTemplate.CommandLine

/-- How a run ends: what it printed, what it complained about, and its exit code. -/
structure Outcome where
  output : String
  complaint : String
  code : UInt32
deriving DecidableEq, Repr

namespace Outcome

/-- The outcome of a command line that is refused. -/
def badUsage : Outcome :=
  ⟨"", "usage: el [-c FILE] check EXPR... | canon EXPR | config\n", 2⟩

/-- The outcome of a run that can print nothing. -/
def failure (complaint : String) : Outcome :=
  ⟨"", "error: " ++ complaint ++ "\n", 1⟩

/-- The outcome of a run that is cut off by an overflow. -/
def overflow : Outcome :=
  ⟨"", "the number of cache segments overflows\n", 101⟩

end Outcome

/-- What the program finds around it. -/
structure Host where
  /-- The hash of keys in a striped cache. -/
  hash : String → Nat
  /-- The values of the environment variables that are set. -/
  environment : String → Option String
  /-- The contents of the files that can be read. -/
  file : String → Option String
  /-- What arguments ask for, or how the run ends if that is not a command: with a complaint, or
  with some help. -/
  understand : List String → Except Outcome Invocation
  /-- How configurations are read and written. -/
  format : Settings.Format

/-- The reader of arguments of this library, which offers no help. -/
def understand (arguments : List String) : Except Outcome Invocation :=
  match Invocation.ofArguments? none arguments with
  | some i => .ok i
  | none => .error .badUsage

/-- Run a command under settings. -/
def Command.run (host : Host) (settings : Settings) : Command → Outcome
  | .check expressions =>
    match Store.ofSettings host.hash settings with
    | .error (.refused e) => .failure e.message
    | .error .overflow => .overflow
    | .ok store =>
      let (output, failed) := checkAll store expressions
      if failed = 0 then ⟨output, "", 0⟩
      else
        ⟨output, "error: " ++ toString failed ++ " of " ++ toString expressions.length ++
          " expressions failed\n", 1⟩
  | .canon expression =>
    match Template.compile (.ofList settings.features) expression with
    | .ok t => ⟨unlines [t.canonical], "", 0⟩
    | .error e => .failure e.message
  | .config =>
    match host.format.write settings with
    | some text => ⟨text, "", 0⟩
    | none => .failure "cannot write the configuration"

/-- What is wrong with a configuration, in words. -/
def complaint : LoadError → String
  | .missing => "cannot read the configuration file"
  | .malformed => "the configuration file is malformed"
  | .invalid e => e.message

/-- The settings of an invocation. With a file, the environment is not read. -/
def Invocation.settings (host : Host) (i : Invocation) : Except LoadError Settings :=
  match i.configFile with
  | some path => Settings.load host.format (host.file path)
  | none =>
    match Settings.ofEnvironment host.environment with
    | .ok settings => .ok settings
    | .error e => .error (.invalid e)

/-- Run a command line. -/
def run (host : Host) (arguments : List String) : Outcome :=
  match host.understand arguments with
  | .error outcome => outcome
  | .ok i =>
    match i.settings host with
    | .ok settings => i.command.run host settings
    | .error e => .failure (complaint e)

end ElTemplate.CommandLine
