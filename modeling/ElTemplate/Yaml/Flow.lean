import ElTemplate.Yaml.Scalar

/-!
# Flow collections

Sequences in brackets and mappings in braces. They may go on over several lines whatever their
indentation, and a comma may stand after the last item. Only a node that ends on the line where it
began can be a key, and its colon stands on that line too.
-/

namespace ElTemplate.Yaml

/-- The next place that is neither white space nor in a comment. -/
def skipFlow (text : List Char) : List Line → Cursor
  | [] =>
    match text.dropWhile isSpace with
    | '#' :: _ => ⟨[], []⟩
    | text => ⟨text, []⟩
  | l :: below =>
    match text.dropWhile isSpace with
    | [] => skipFlow l.text below
    | '#' :: _ => skipFlow l.text below
    | text => ⟨text, l :: below⟩

def Cursor.skip (c : Cursor) : Cursor :=
  skipFlow c.text c.below

/-- The rest of a plain scalar in the lines below the one in which it began. Only tabs directly
after the scalar have to heed the indentation by `low`. -/
def flowPlainLines (low : Nat) (content : List Char) : List Line → Option (Value × Cursor)
  | [] => some (.plain content, ⟨[], []⟩)
  | l :: below =>
    if l.isTabbed low then none
    else
      let text := l.text.dropWhile isSpace
      let (more, rest) := plainSpan true true text
      if text = [] then flowPlainLines low content below
      else if more = [] then some (.plain content, ⟨text, below⟩)
      else
        let content := content ++ ' ' :: trimEnd more
        match rest with
        | [] => flowPlainLines low content below
        | rest => some (.plain content, ⟨rest, below⟩)

/-- A plain scalar in a flow collection. A colon directly before an indicator belongs to neither. -/
def flowPlain (low : Nat) (c : Cursor) : Option (Value × Cursor) :=
  if startsPlain true c.text then
    let (content, rest) := plainSpan true false c.text
    match rest with
    | [] => flowPlainLines low (trimEnd content) c.below
    | ':' :: after =>
      if atSpace after then some (.plain (trimEnd content), ⟨rest, c.below⟩) else none
    | rest => some (.plain (trimEnd content), ⟨rest, c.below⟩)
  else none

mutual

/-- A value in a flow collection within a block whose content is indented by `low`. The first
argument bounds the number of steps. -/
def flowNode : Nat → Nat → Cursor → Option (Value × Cursor)
  | 0, _, _ => none
  | steps + 1, low, c =>
    match c.text with
    | '[' :: rest => flowItems steps low [] (Cursor.skip ⟨rest, c.below⟩)
    | '{' :: rest => flowEntries steps low [] (Cursor.skip ⟨rest, c.below⟩)
    | '"' :: rest => quotedScalar '"' ⟨rest, c.below⟩
    | '\'' :: rest => quotedScalar '\'' ⟨rest, c.below⟩
    | _ => flowPlain low c

/-- The value of the key between two places, if a colon makes a key of it; nothing may be written
after the colon. -/
def flowValue? : Nat → Nat → Cursor → Cursor → Option (Option Value × Cursor)
  | 0, _, _, _ => none
  | steps + 1, low, start, stop =>
    match start.colon? stop with
    | some rest =>
      let c := Cursor.skip ⟨rest, stop.below⟩
      if c.text.head?.any (fun d => d == ',' || d == ']' || d == '}') then
        some (some .absent, c)
      else
        match flowNode steps low c with
        | some (value, c) => some (some value, c.skip)
        | none => none
    | none => some (none, stop.skip)

/-- The items of a flow sequence up to its closing bracket. An item with a colon is a mapping. -/
def flowItems : Nat → Nat → List Value → Cursor → Option (Value × Cursor)
  | 0, _, _, _ => none
  | steps + 1, low, items, c =>
    match c.text with
    | ']' :: rest => some (.sequence items.reverse, ⟨rest, c.below⟩)
    | _ =>
      match flowNode steps low c with
      | none => none
      | some (item, stop) =>
        match flowValue? steps low c stop with
        | none => none
        | some (value, c) =>
          let item := match value with
            | some value => .mapping [(item, value)]
            | none => item
          match c.text with
          | ',' :: rest => flowItems steps low (item :: items) (Cursor.skip ⟨rest, c.below⟩)
          | ']' :: rest => some (.sequence (item :: items).reverse, ⟨rest, c.below⟩)
          | _ => none

/-- The entries of a flow mapping up to its closing brace. -/
def flowEntries : Nat → Nat → List (Value × Value) → Cursor → Option (Value × Cursor)
  | 0, _, _, _ => none
  | steps + 1, low, entries, c =>
    match c.text with
    | '}' :: rest => some (.mapping entries.reverse, ⟨rest, c.below⟩)
    | _ =>
      match flowNode steps low c with
      | none => none
      | some (key, stop) =>
        match flowValue? steps low c stop with
        | none => none
        | some (value, c) =>
          let entry := (key, value.getD .absent)
          match c.text with
          | ',' :: rest => flowEntries steps low (entry :: entries) (Cursor.skip ⟨rest, c.below⟩)
          | '}' :: rest => some (.mapping (entry :: entries).reverse, ⟨rest, c.below⟩)
          | _ => none

end

end ElTemplate.Yaml
