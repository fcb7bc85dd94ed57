import ElTemplate.Node.Literal

/-!
# Nodes of a compiled template

A template is text, one block, or a sequence of both; below a block stands an expression.
Identifiers and calls carry the index of their name in the inventories of the template they belong
to, which is how they are bound to values.
-/

namespace ElTemplate

/-- Operators with one operand. -/
inductive UnaryOp where
  | minus | not | empty
deriving DecidableEq, Repr, Inhabited

/-- Operators with two operands. -/
inductive BinaryOp where
  | mul | div | mod | add | sub | lt | gt | le | ge | eq | ne | and | or
deriving DecidableEq, Repr, Inhabited

def UnaryOp.spelling : UnaryOp → String
  | minus => "-"
  | not => "!"
  | empty => "empty"

def BinaryOp.spelling : BinaryOp → String
  | mul => "*"
  | div => "/"
  | mod => "%"
  | add => "+"
  | sub => "-"
  | lt => "<"
  | gt => ">"
  | le => "<="
  | ge => ">="
  | eq => "=="
  | ne => "!="
  | and => "&&"
  | or => "||"

/-- A node of a compiled template. -/
inductive Node where
  /-- Text outside of blocks, in its raw spelling. -/
  | text (raw : String)
  /-- A block, evaluated at once or deferred. -/
  | eval (deferred : Bool) (child : Node)
  | literal (value : Literal)
  /-- A variable and the index of its name. -/
  | identifier (name : String) (index : Nat)
  /-- A named property of a value; `assignable` says whether it can be assigned to. -/
  | property (base : Node) (name : String) (assignable : Bool)
  /-- The item of a value under a computed key. -/
  | item (base : Node) (key : Node) (assignable : Bool)
  /-- An expression in parentheses. -/
  | bracket (inner : Node)
  | unary (op : UnaryOp) (operand : Node)
  | binary (op : BinaryOp) (left right : Node)
  | ternary (condition yes no : Node)
  /-- A function call, with the index of its call site. -/
  | call (qualifier : Option String) (name : String) (index : Nat) (arguments : List Node)
  /-- A call of what a property or an item is. -/
  | method (target : Node) (arguments : List Node)
  /-- Text and blocks in sequence. -/
  | composite (parts : List Node)
deriving Repr, Inhabited

namespace Node

/-- Whether an assignment can write to the node. -/
def isAssignable : Node → Bool
  | identifier .. => true
  | property _ _ assignable => assignable
  | item _ _ assignable => assignable
  | eval _ child => child.isAssignable
  | _ => false

/-- Whether the node is text outside of blocks. -/
def isText : Node → Bool
  | text _ => true
  | _ => false

/-- Whether the node is a literal that stands by itself. -/
def isLiteral : Node → Bool
  | literal _ => true
  | _ => false

end Node

end ElTemplate
