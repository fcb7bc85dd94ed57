import ElTemplate.Node.Spelling

/-!
# Compiled templates

A template is its tree of nodes together with the names it uses: the variables, and the ways in
which it calls functions, both without repetition.
-/

namespace ElTemplate

/-- A compiled template. -/
structure Template where
  root : Node
  /-- Whether its blocks are deferred. -/
  deferred : Bool
  /-- The names of the variables. -/
  identifiers : List String
  functions : List CallSite
deriving Repr, Inhabited

namespace Template

/-- Whether the template is text without any block. -/
def isLiteralText (t : Template) : Bool :=
  t.root.isText

/-- Whether an assignment can write to the template's value. -/
def isAssignable (t : Template) : Bool :=
  t.root.isAssignable

/-- The canonical text of a template under bindings. -/
def spelling {β : Type} (t : Template) (b : Bindings β) : String :=
  t.root.spelling b

/-- The canonical text of a template with nothing bound. -/
def canonical (t : Template) : String :=
  t.root.canonical

end Template

end ElTemplate
