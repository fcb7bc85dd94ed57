import ElTemplate.Parser.Operator
import ElTemplate.Parser.State

/-!
# Parsing expressions

Binary operators come in six tiers, all of them grouping to the left; unary operators bind tighter
than every tier, and access steps tighter still. A conditional stands below all tiers and takes
whole expressions as its branches. An identifier before a colon, an identifier and a parenthesis
qualifies the call that they begin, even where the colon could belong to a conditional.

Every construct is a function of the parsers for its parts. `level` ties them together: with one
level of nesting less at each step, so that expressions end where their nesting is used up.
-/

namespace ElTemplate

/-- What an access step asks of a value. -/
inductive AccessKey where
  | property (name : String)
  | item (key : Node)

/-- The access of a value. A literal by itself cannot be assigned to, one in parentheses can. -/
def AccessKey.access (base : Node) : AccessKey → Node
  | property name => .property base name (!base.isLiteral)
  | item key => .item base key (!base.isLiteral)

namespace Parser

variable {σ : Type} [TokenSource σ]

/-- Read operators and operands as long as there are operators, grouping to the left. `budget`
bounds their number, `folds` counts those read so far. -/
def chainFrom (operand : Parser σ Node) (operator? : Token.Kind → Option BinaryOp)
    (budget : Nat) (left : Node) (folds : Nat) : Parser σ Node := do
  match operator? (← kind) with
  | none =>
    release folds
    return left
  | some op =>
    match budget with
    | 0 => refuse .depthLimit
    | budget + 1 =>
      deepen
      let _ ← advance
      let right ← operand
      chainFrom operand operator? budget (.binary op left right) (folds + 1)

/-- A chain of operands with operators between them. -/
def chain (operand : Parser σ Node) (operator? : Token.Kind → Option BinaryOp) :
    Parser σ Node := do
  chainFrom operand operator? maxDepth (← operand) 0

/-- The binary operators of the first tiers over an operand. -/
def binary (operand : Parser σ Node) : Nat → Parser σ Node
  | 0 => operand
  | tier + 1 => chain (binary operand tier) (BinaryOp.ofTier? (tier + 1))

/-- A conditional, or its condition alone. -/
def ternary (operand expression : Parser σ Node) : Parser σ Node := do
  let condition ← binary operand BinaryOp.tiers
  if (← kind) = .question then
    let _ ← advance
    let yes ← expression
    let _ ← expect .colon
    let no ← expression
    return .ternary condition yes no
  else
    return condition

/-- A unary operator before what `inner` reads, or a value. -/
def unary (inner value : Parser σ Node) : Parser σ Node := do
  match UnaryOp.ofKind? (← kind) with
  | some op =>
    let _ ← advance
    return .unary op (← inner)
  | none => value

/-- More arguments, each after a comma. `budget` bounds their number, `arguments` holds those
read so far in reverse. -/
def argumentsFrom (expression : Parser σ Node) :
    Nat → List Node → Parser σ (List Node)
  | 0, arguments => return arguments.reverse
  | budget + 1, arguments => do
    if (← kind) = .comma then
      let _ ← advance
      let argument ← expression
      argumentsFrom expression budget (argument :: arguments)
    else
      return arguments.reverse

/-- Arguments in parentheses. -/
def arguments (size : Nat) (expression : Parser σ Node) : Parser σ (List Node) := do
  let _ ← expect .leftParen
  let arguments ←
    if (← kind) = .rightParen then pure []
    else do
      let argument ← expression
      argumentsFrom expression size [argument]
  let _ ← expect .rightParen
  return arguments

/-- Whether a colon, an identifier and a parenthesis are ahead. Tokens are read ahead only as far
as they decide. -/
def atQualifiedCall : Parser σ Bool := do
  if (← kind) = .colon then
    if (← ahead 0) = .identifier then
      return (← ahead 1) = .leftParen
    else
      return false
  else
    return false

/-- A variable or a call, at its first identifier. -/
def named (features : FeatureSet) (size : Nat) (expression : Parser σ Node) :
    Parser σ Node := do
  let name := (← advance).image
  if ← atQualifiedCall then
    let _ ← advance
    let qualified := (← advance).image
    call features (some name) qualified (← arguments size expression)
  else if (← kind) = .leftParen then
    call features none name (← arguments size expression)
  else
    identifier name

/-- A literal. -/
def literal : Parser σ Node := do
  let token := TokenSource.current (← get).source
  match Literal.ofToken? token with
  | none => refuse (.oneOf Expectation.operandStart)
  | some (.error fault) => throw (.scan ⟨token.position, fault⟩)
  | some (.ok value) =>
    let _ ← advance
    return .literal value

/-- What access steps start from: a variable, a call, an expression in parentheses or a
literal. -/
def primary (features : FeatureSet) (size : Nat) (expression : Parser σ Node) :
    Parser σ Node := do
  match ← kind with
  | .identifier => named features size expression
  | .leftParen =>
    let _ ← advance
    let inner ← expression
    let _ ← expect .rightParen
    return .bracket inner
  | _ => literal

/-- The key of an access step, if one is ahead. -/
def accessKey? (expression : Parser σ Node) : Parser σ (Option AccessKey) := do
  match ← kind with
  | .dot =>
    let _ ← advance
    return some (.property (← expect .identifier).image)
  | .leftBracket =>
    let _ ← advance
    let key ← expression
    let _ ← expect .rightBracket
    return some (.item key)
  | _ => return none

/-- The arguments that make an access a method call, where the features allow it. -/
def invocation (features : FeatureSet) (size : Nat) (expression : Parser σ Node)
    (target : Node) : Parser σ Node := do
  if features.methodInvocations ∧ (← kind) = .leftParen then
    return .method target (← arguments size expression)
  else
    return target

/-- Read access steps as long as there are any. `budget` bounds their number, `steps` counts those
read so far. -/
def stepsFrom (features : FeatureSet) (size : Nat) (expression : Parser σ Node)
    (budget : Nat) (base : Node) (steps : Nat) : Parser σ Node := do
  match ← accessKey? expression with
  | none =>
    release steps
    return base
  | some key =>
    match budget with
    | 0 => refuse .depthLimit
    | budget + 1 =>
      deepen
      let value ← invocation features size expression (key.access base)
      stepsFrom features size expression budget value (steps + 1)

/-- A primary with its access steps. -/
def value (features : FeatureSet) (size : Nat) (expression : Parser σ Node) :
    Parser σ Node := do
  stepsFrom features size expression maxDepth (← primary features size expression) 0

/-- The parsers that are left with some number of levels of nesting. -/
structure Level (σ : Type) where
  /-- A whole expression, which takes up one level. -/
  expression : Parser σ Node
  /-- An operand of binary operators, which takes up none by itself. -/
  operand : Parser σ Node

/-- The parsers that may open this many more levels of nesting. -/
def level (features : FeatureSet) (size : Nat) : Nat → Level σ
  | 0 =>
    { expression := refuse .nestingLimit
      operand := unary (refuse .nestingLimit) (value features size (refuse .nestingLimit)) }
  | levels + 1 =>
    let inner := level features size levels
    let expression := nested (ternary inner.operand inner.expression)
    { expression
      operand := unary (nested inner.operand) (value features size expression) }

/-- A whole expression outside of all others. -/
def expression (features : FeatureSet) (size : Nat) : Parser σ Node :=
  (level features size maxNesting).expression

end Parser

end ElTemplate
