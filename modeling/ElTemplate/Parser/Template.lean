import ElTemplate.Parser.Expression

/-!
# Parsing templates

A template is an optional text followed by blocks, with an optional text after each. All blocks are
opened by the same delimiter. A single block without text is the root by itself.
-/

namespace ElTemplate

namespace Parser

variable {σ : Type} [TokenSource σ]

/-- The delimiter that opens a block. -/
def startKind (deferred : Bool) : Token.Kind :=
  if deferred then .startDeferred else .startDynamic

/-- The text ahead, if there is any. -/
def text? : Parser σ (Option Node) := do
  if (← kind) = .text then
    return some (.text (← advance).image)
  else
    return none

/-- A block. -/
def block (features : FeatureSet) (size : Nat) (deferred : Bool) : Parser σ Node := do
  let _ ← expect (startKind deferred)
  let child ← expression features size
  let _ ← expect .endEval
  return .eval deferred child

/-- Blocks and texts up to the end. `budget` bounds the number of blocks, `parts` holds the parts
read so far in reverse. -/
def partsFrom (features : FeatureSet) (size : Nat) (deferred : Bool) :
    Nat → List Node → Parser σ (List Node)
  | 0, parts => return parts.reverse
  | budget + 1, parts => do
    if (← kind) = .eof then
      return parts.reverse
    else
      let part ← block features size deferred
      let text ← text?
      partsFrom features size deferred budget (text.toList ++ part :: parts)

/-- The blocks of a template whose first text has been read, at the first block. -/
def blocks (features : FeatureSet) (size : Nat) (text : Option Node) (deferred : Bool) :
    Parser σ Node := do
  let first ← block features size deferred
  if (← kind) = .eof ∧ text.isNone then
    return first
  else
    let next ← text?
    let parts := next.toList ++ first :: text.toList
    return .composite (← partsFrom features size deferred size parts)

/-- A whole template: its root, and whether its blocks are deferred. -/
def template (features : FeatureSet) (size : Nat) : Parser σ (Node × Bool) := do
  let text ← text?
  match ← kind with
  | .eof => return (text.getD (.text ""), false)
  | .startDynamic => return (← blocks features size text false, false)
  | .startDeferred => return (← blocks features size text true, true)
  | _ => refuse (.oneOf [.startDeferred, .startDynamic])

/-- The state before the first token has been looked at. -/
def initialState (source : σ) : ParserState σ :=
  ⟨source, .empty, .empty, 0, 0⟩

/-- The template that a source of tokens spells, which holds at most `size` blocks and commas. -/
def run (features : FeatureSet) (size : Nat) (source : σ) : Except CompileError Template :=
  match template features size (initialState source) with
  | .ok ((root, deferred), s) =>
    .ok ⟨root, deferred, s.identifiers.toList, s.functions.toList⟩
  | .error e => .error e

end Parser

/-- The template that a source text spells. -/
def Template.compile (features : FeatureSet) (source : String) : Except CompileError Template :=
  match Reader.ofChars source.toList with
  | .ok reader => Parser.run features source.length reader
  | .error e => .error (.scan e)

end ElTemplate
