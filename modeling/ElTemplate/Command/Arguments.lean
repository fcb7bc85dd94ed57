/-!
# Command line arguments

What a command line may ask for, and one reader of command lines. For it a line names one command,
with expressions for some of them, and may name a configuration file anywhere before or after the
command. An option's value stands in the next argument or is attached to the option. Two dashes end
the options. A line that does not fit is refused as a whole.
-/

namespace ElTemplate.CommandLine

/-- What the program is asked to do. -/
inductive Command where
  /-- Report on expressions. -/
  | check (expressions : List String)
  /-- Print the canonical text of an expression. -/
  | canon (expression : String)
  /-- Print the settings. -/
  | config
deriving DecidableEq, Repr

/-- A command line that has been understood. -/
structure Invocation where
  /-- The configuration file, where one is named. -/
  configFile : Option String
  command : Command
deriving DecidableEq, Repr

/-- What an argument is by itself. -/
inductive Argument where
  /-- The two dashes. -/
  | separator
  /-- The configuration option, with its value if one is attached. -/
  | config (value : Option String)
  | unknownOption
  | operand (text : String)
deriving DecidableEq, Repr

/-- The kind of an argument before the two dashes. A dash alone is an operand. -/
def Argument.ofString (text : String) : Argument :=
  match text.toList with
  | ['-', '-'] => separator
  | '-' :: '-' :: option =>
    if option = "config".toList then config none
    else if "config=".toList.isPrefixOf option then config (some (String.ofList (option.drop 7)))
    else unknownOption
  | ['-', 'c'] => config none
  | '-' :: 'c' :: '=' :: value => config (some (String.ofList value))
  | '-' :: 'c' :: value => config (some (String.ofList value))
  | ['-'] => operand text
  | '-' :: _ => unknownOption
  | _ => operand text

/-- The configuration file of one level, and its operands. -/
structure Level where
  configFile : Option String
  operands : List String
deriving DecidableEq, Repr

/-- The option and the operands among the arguments after the command. The option may stand
once. -/
def readLevel? (configFile : Option String) : List String → Option Level
  | [] => some ⟨configFile, []⟩
  | text :: rest =>
    match Argument.ofString text with
    | .separator => some ⟨configFile, rest⟩
    | .unknownOption => none
    | .operand text =>
      (readLevel? configFile rest).map fun level =>
        { level with operands := text :: level.operands }
    | .config (some value) =>
      if configFile.isSome then none else readLevel? (some value) rest
    | .config none =>
      match rest with
      | [] => none
      | value :: rest =>
        match Argument.ofString value with
        | .operand value => if configFile.isSome then none else readLevel? (some value) rest
        | _ => none

/-- The command of a name with its operands. -/
def Command.ofOperands? (name : String) (operands : List String) : Option Command :=
  if name = "check" then if operands = [] then none else some (.check operands)
  else if name = "canon" then
    match operands with
    | [expression] => some (.canon expression)
    | _ => none
  else if name = "config" then if operands = [] then some .config else none
  else none

/-- The invocation that arguments spell. The option after the command outweighs the one before. -/
def Invocation.ofArguments? (configFile : Option String) : List String → Option Invocation
  | [] => none
  | text :: rest =>
    match Argument.ofString text with
    | .separator => none
    | .unknownOption => none
    | .operand name => do
      let level ← readLevel? none rest
      let command ← Command.ofOperands? name level.operands
      return ⟨level.configFile <|> configFile, command⟩
    | .config (some value) =>
      if configFile.isSome then none else ofArguments? (some value) rest
    | .config none =>
      match rest with
      | [] => none
      | value :: rest =>
        match Argument.ofString value with
        | .operand value => if configFile.isSome then none else ofArguments? (some value) rest
        | _ => none

end ElTemplate.CommandLine
