import ElTemplate.Parser.Error
import ElTemplate.Template.Basic
import ElTemplate.Template.Feature
import ElTemplate.Template.Inventory
import ElTemplate.Token.Reader

/-!
# Parser state

A parser reads tokens, registers the names it meets, and counts how deep it is. `nesting` counts
the expressions and unary operators that are open; `depth` counts these and also the operators and
access steps of the chains being read. Both counts are given back when their construct ends, so
that constructs side by side do not add up.
-/

namespace ElTemplate

/-- The state of a parser that reads tokens from `σ`. -/
structure ParserState (σ : Type) where
  source : σ
  identifiers : Inventory String
  functions : Inventory CallSite
  nesting : Nat
  depth : Nat

/-- A parser for `α`. -/
abbrev Parser (σ α : Type) := StateT (ParserState σ) (Except CompileError) α

namespace Parser

variable {σ α : Type} [TokenSource σ]

/-- The kind of the current token. -/
def kind : Parser σ Token.Kind :=
  return (TokenSource.current (← get).source).kind

/-- Refuse the current token. -/
def refuse (expected : Expectation) : Parser σ α :=
  fun s => .error (.parse ⟨TokenSource.current s.source, expected⟩)

/-- Move to the next token, and give the one left behind. -/
def advance : Parser σ Token := fun s =>
  match TokenSource.advance s.source with
  | .ok source => .ok (TokenSource.current s.source, { s with source })
  | .error e => .error (.scan e)

/-- The kind of the token `index + 1` behind the current one. -/
def ahead (index : Nat) : Parser σ Token.Kind := fun s =>
  match TokenSource.ahead index s.source with
  | .ok (kind, source) => .ok (kind, { s with source })
  | .error e => .error (.scan e)

/-- Move past a token of this kind. -/
def expect (expected : Token.Kind) : Parser σ Token := do
  if (← kind) = expected then advance else refuse (.oneOf [expected])

/-- Count one more level of the tree. -/
def deepen : Parser σ Unit := fun s =>
  if s.depth + 1 ≤ maxDepth then .ok ((), { s with depth := s.depth + 1 })
  else refuse .depthLimit s

/-- Open one more expression or unary operator. -/
def enter : Parser σ Unit := fun s =>
  if s.nesting + 1 ≤ maxNesting then deepen { s with nesting := s.nesting + 1 }
  else refuse .nestingLimit s

/-- Close the innermost expression or unary operator. -/
def leave : Parser σ Unit := fun s =>
  .ok ((), { s with nesting := s.nesting - 1, depth := s.depth - 1 })

/-- Give back the levels of a chain. -/
def release (levels : Nat) : Parser σ Unit := fun s =>
  .ok ((), { s with depth := s.depth - levels })

/-- Parse one level deeper. -/
def nested (p : Parser σ α) : Parser σ α := do
  enter
  let a ← p
  leave
  return a

/-- A variable, under the index of its name. -/
def identifier (name : String) : Parser σ Node := fun s =>
  let (index, identifiers) := s.identifiers.register name
  .ok (.identifier name index, { s with identifiers })

/-- A call, under the index of its call site. -/
def call (features : FeatureSet) (qualifier : Option String) (name : String)
    (arguments : List Node) : Parser σ Node := fun s =>
  let (index, functions) :=
    s.functions.register ⟨qualifier, name, arguments.length, features.varargs⟩
  .ok (.call qualifier name index arguments, { s with functions })

end Parser

end ElTemplate
