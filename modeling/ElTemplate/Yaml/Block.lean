import ElTemplate.Yaml.BlockScalar
import ElTemplate.Yaml.Flow

/-!
# Block structure

Mappings and sequences whose extent is given by indentation, and whole documents. A sequence that
is the value of a mapping's key may stand at the indentation of that mapping. What cannot be read
gives `none`; only one document is read.
-/

namespace ElTemplate.Yaml

/-- The key that a line begins with, and what follows its colon. A flow collection can be one. -/
def key? (text : List Char) : Option (Value × List Char) := do
  let start : Cursor := ⟨text, []⟩
  let (key, stop) ←
    if startsPlain false text then
      let (content, rest) := plainSpan false false text
      some (Value.plain (trimEnd content), Cursor.mk rest [])
    else flowNode (2 * start.size) 0 start
  let rest ← start.colon? stop
  if atSpace rest then some (key, rest) else none

/-- A value that begins within a line and is no block collection. -/
def inlineNode (low : Nat) (c : Cursor) : Option (Value × List Line) :=
  match c.text with
  | '|' :: rest => BlockHeader.ofText? rest >>= blockScalar low false c.below
  | '>' :: rest => BlockHeader.ofText? rest >>= blockScalar low true c.below
  | text =>
    if startsPlain false text then plainScalar low c
    else do
      let (value, stop) ← flowNode (2 * c.size) low c
      let below ← stop.finishLine
      return (value, below)

mutual

/-- The value at the first line, which is neither blank nor a comment. Its scalars may go on in
lines that are indented at least by `low`. The first argument bounds the number of steps. -/
def blockNode : Nat → Nat → Line → List Line → Option (Value × List Line)
  | 0, _, _, _ => none
  | steps + 1, low, l, below =>
    if l.isItem then blockItems steps l.indent [] (l :: below)
    else if (key? l.text).isSome then blockEntries steps l.indent [] (l :: below)
    else inlineNode low ⟨l.text, below⟩

/-- The value in the lines below its key or dash, absent if they are not indented by `low`. The sign
of a block scalar is no key, and may stand where the next key would. -/
def blockBelow : Nat → Nat → List Line → Option (Value × List Line)
  | 0, _, _ => none
  | steps + 1, low, below =>
    match skipIgnorable below with
    | [] => some (.absent, [])
    | l :: rest =>
      if low ≤ l.indent ∨ (low = l.indent + 1 ∧ l.isBlockScalar) then blockNode steps low l rest
      else some (.absent, l :: rest)

/-- The items of a sequence whose dashes are indented by `indent`. -/
def blockItems : Nat → Nat → List Value → List Line → Option (Value × List Line)
  | 0, _, _, _ => none
  | steps + 1, indent, items, below =>
    match skipIgnorable below with
    | [] => some (.sequence items.reverse, [])
    | l :: rest =>
      if l.indent < indent ∨ (l.indent = indent ∧ !l.isItem) then
        some (.sequence items.reverse, l :: rest)
      else if indent < l.indent then none
      else
        let content := Line.ofChars (l.text.drop 1)
        let item :=
          if content.isIgnorable then blockBelow steps (indent + 1) rest
          else blockNode steps (indent + 1) ⟨indent + 1 + content.indent, content.text⟩ rest
        match item with
        | some (item, below) => blockItems steps indent (item :: items) below
        | none => none

/-- The entries of a mapping whose keys are indented by `indent`. -/
def blockEntries : Nat → Nat → List (Value × Value) → List Line → Option (Value × List Line)
  | 0, _, _, _ => none
  | steps + 1, indent, entries, below =>
    match skipIgnorable below with
    | [] => some (.mapping entries.reverse, [])
    | l :: rest =>
      if l.indent < indent then some (.mapping entries.reverse, l :: rest)
      else if indent < l.indent then none
      else
        match key? l.text with
        | none => none
        | some (key, text) =>
          let text := text.dropWhile isSpace
          let value :=
            if text.head?.all (· == '#') then
              match skipIgnorable rest with
              | next :: _ =>
                if next.indent = indent ∧ next.isItem then blockItems steps indent [] rest
                else blockBelow steps (indent + 1) rest
              | [] => some (.absent, [])
            else inlineNode (indent + 1) ⟨text, rest⟩
          match value with
          | some (value, below) => blockEntries steps indent ((key, value) :: entries) below
          | none => none

end

/-- Whether only ignorable lines and marks of a document's end are left. -/
def isTrailer (ls : List Line) : Bool :=
  ls.all fun l => l.isIgnorable ||
    (l.isMark '.' && ((l.text.drop 3).dropWhile isSpace).head?.all (· == '#'))

/-- The value of a document in its lines, the first of which may already be begun. -/
def documentBody (c : Cursor) : Option Value :=
  let steps := 2 * c.size + 2
  let root :=
    if (c.text.dropWhile isSpace).head?.all (· == '#') then blockBelow steps 0 c.below
    else inlineNode 0 ⟨c.text.dropWhile isSpace, c.below⟩
  match root with
  | some (value, below) => if below.all Line.isIgnorable then some value else none
  | none => none

/-- The value of the only document in the lines. A mark may open it; without one, no mark of an end
may come first. Before a mark its last line is an empty one. -/
def document (ls : List Line) : Option Value :=
  let isMark (l : Line) : Bool := l.isMark '-' || l.isMark '.'
  match skipIgnorable ls with
  | [] => some .absent
  | first :: rest =>
    let body := if first.isMark '-' then rest else first :: rest
    let opening := if first.isMark '-' then first.text.drop 3 else []
    let trailer := body.dropWhile (!isMark ·)
    let lastLine := if trailer = [] then [] else [Line.ofChars []]
    if first.isMark '.' then none
    else if isTrailer trailer then
      documentBody ⟨opening, body.takeWhile (!isMark ·) ++ lastLine⟩
    else none

/-- The value of a YAML text. A byte order mark at its beginning takes the place of a space. -/
def read (cs : List Char) : Option Value :=
  let cs := match cs with
    | '\uFEFF' :: rest => ' ' :: rest
    | _ => cs
  if cs.all isPrintable then document (lines cs) else none

end ElTemplate.Yaml
