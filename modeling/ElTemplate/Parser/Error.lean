import ElTemplate.Token.Scanner

/-!
# Compile errors

A template fails to compile when its next token cannot be read or when it is not one that the
grammar allows there. The second kind keeps the token met and what would have been accepted.
-/

namespace ElTemplate

/-- The deepest allowed nesting of expressions and unary operators. -/
def maxNesting : Nat := 128

/-- The deepest allowed count of nesting, operators and access steps together. -/
def maxDepth : Nat := 1000

/-- What would have been accepted in place of a token. -/
inductive Expectation where
  /-- A token of one of these kinds. -/
  | oneOf (kinds : List Token.Kind)
  /-- Fewer levels of nesting. -/
  | nestingLimit
  /-- Fewer levels of the tree. -/
  | depthLimit
deriving DecidableEq, Repr

namespace Expectation

/-- The expectation in words. -/
def describe : Expectation → String
  | oneOf kinds => String.intercalate "|" (kinds.map Token.Kind.describe)
  | nestingLimit => "at most " ++ toString maxNesting ++ " nesting levels"
  | depthLimit => "at most " ++ toString maxDepth ++ " tree levels"

/-- The kinds that an operand may begin with. -/
def operandStart : List Token.Kind :=
  [.identifier, .string, .float, .integer, .trueWord, .falseWord, .nullWord, .minus, .not, .empty,
    .leftParen]

end Expectation

/-- A token in a place where the grammar does not allow it. -/
structure ParseError where
  encountered : Token
  expected : Expectation
deriving DecidableEq, Repr

def ParseError.message (e : ParseError) : String :=
  "syntax error at position " ++ toString e.encountered.position ++ ", encountered " ++
    e.encountered.describe ++ ", expected " ++ e.expected.describe

/-- Why a template does not compile. -/
inductive CompileError where
  | scan (e : ScanError)
  | parse (e : ParseError)
deriving DecidableEq, Repr

namespace CompileError

/-- The offset of the offending token. -/
def position : CompileError → Nat
  | scan e => e.position
  | parse e => e.encountered.position

def message : CompileError → String
  | scan e => e.message
  | parse e => e.message

end CompileError

end ElTemplate
