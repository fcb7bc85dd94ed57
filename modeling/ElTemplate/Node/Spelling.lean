import ElTemplate.Binding.Basic
import ElTemplate.Node.Basic

/-!
# Canonical text

The spelling of a node with one space around operators, symbols in place of operator words, and
single quotes around strings. Equivalent sources have equal canonical texts. Under bindings, bound
variables are spelled `<var>` and bound functions `<fn>`, so that templates can be compared up to
the names they use.
-/

namespace ElTemplate.Node

variable {β : Type}

/-- The spelling of a call's name. -/
def callName (b : Bindings β) (qualifier : Option String) (name : String) (index : Nat) : String :=
  if (b.signature? index).isSome then "<fn>"
  else match qualifier with
    | some qualifier => qualifier ++ ":" ++ name
    | none => name

mutual

/-- The spelling of a node under bindings. -/
def spelling (b : Bindings β) : Node → String
  | text raw => raw
  | eval deferred child =>
    (if deferred then "#\x7b" else "$\x7b") ++ child.spelling b ++ "\x7d"
  | literal value => value.spelling
  | identifier name index => if (b.value? index).isSome then "<var>" else name
  | property base name _ => base.spelling b ++ "." ++ name
  | item base key _ => base.spelling b ++ "[" ++ key.spelling b ++ "]"
  | bracket inner => "(" ++ inner.spelling b ++ ")"
  | unary op operand => op.spelling ++ " " ++ operand.spelling b
  | binary op left right => left.spelling b ++ " " ++ op.spelling ++ " " ++ right.spelling b
  | ternary condition yes no =>
    condition.spelling b ++ " ? " ++ yes.spelling b ++ " : " ++ no.spelling b
  | call qualifier name index arguments =>
    callName b qualifier name index ++ "(" ++ spellArguments b arguments ++ ")"
  | method target arguments => target.spelling b ++ "(" ++ spellArguments b arguments ++ ")"
  | composite parts => spellParts b parts

/-- The spellings of arguments, a comma and a space between two. -/
def spellArguments (b : Bindings β) : List Node → String
  | [] => ""
  | argument :: rest => argument.spelling b ++ spellFurther b rest

/-- The spellings of further arguments, a comma and a space before each. -/
def spellFurther (b : Bindings β) : List Node → String
  | [] => ""
  | argument :: rest => ", " ++ argument.spelling b ++ spellFurther b rest

/-- The spellings of the parts of a template, one after the other. -/
def spellParts (b : Bindings β) : List Node → String
  | [] => ""
  | part :: rest => part.spelling b ++ spellParts b rest

end

/-- The spelling of a node with nothing bound. -/
def canonical (n : Node) : String :=
  n.spelling (Bindings.empty : Bindings Empty)

end ElTemplate.Node
