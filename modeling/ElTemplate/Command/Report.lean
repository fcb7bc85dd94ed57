import ElTemplate.Cache.Store
import ElTemplate.Text.Escape

/-!
# Reports on expressions

What checking an expression prints: the expression itself, and then its properties or a caret under
the offending token and the error. Expressions are compiled by one store after the other, but what
is printed about each depends on it alone.
-/

namespace ElTemplate.CommandLine

/-- The lines, each with a line break at its end. -/
def unlines (lines : List String) : String :=
  String.join (lines.map (· ++ "\n"))

/-- One line of a report; nothing is written of an empty list. -/
def listLine (label : String) (items : List String) : List String :=
  if items = [] then [] else [label ++ String.intercalate ", " items]

/-- The line with the meaning of a template that is text only. -/
def textLine (root : Node) : List String :=
  match root with
  | .text raw => ["  text:         " ++ Text.unescapeString raw]
  | _ => []

/-- The report on an expression that compiles. -/
def describe (t : Template) : List String :=
  ["  canonical:    " ++ t.canonical,
    "  literal text: " ++ toString t.isLiteralText,
    "  deferred:     " ++ toString t.deferred,
    "  left value:   " ++ toString t.isAssignable] ++
  textLine t.root ++
  listLine "  identifiers:  " t.identifiers ++
  listLine "  functions:    " (t.functions.map CallSite.qualifiedName)

/-- The report on an expression that does not compile, with a caret under the offending token. -/
def describeError (e : CompileError) : List String :=
  [String.ofList (List.replicate e.position ' ') ++ "^", "  error: " ++ e.message]

/-- The report on an expression. -/
def report (source : String) (result : Except CompileError Template) : String :=
  unlines <| source :: match result with
    | .ok t => describe t
    | .error e => describeError e

/-- The reports on expressions that are compiled one after the other by a store, and how many of
them failed. -/
def checkAll (store : Store) : List String → String × Nat
  | [] => ("", 0)
  | source :: rest =>
    let (result, store) := store.compile source
    let (output, failed) := checkAll store rest
    (report source result ++ output, if result.isOk then failed else failed + 1)

end ElTemplate.CommandLine
