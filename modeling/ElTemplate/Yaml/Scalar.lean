import ElTemplate.Number.Core
import ElTemplate.Yaml.Line

/-!
# YAML values and scalars

Plain scalars end at a colon or a comment sign that stands by itself, quoted ones at their closing
quote. Both may go on over several lines, which are joined by spaces; as a key neither may.
-/

namespace ElTemplate.Yaml

/-- A value of a YAML document. Whether a scalar was quoted decides how it may be read. -/
inductive Value where
  | plain (text : List Char)
  | quoted (text : List Char)
  | sequence (items : List Value)
  | mapping (entries : List (Value × Value))
deriving Repr

namespace Value

/-- The value where none is written. -/
def absent : Value :=
  plain []

/-- The text of a scalar. -/
def text? : Value → Option (List Char)
  | plain text => some text
  | quoted text => some text
  | _ => none

end Value

/-- A place within a line: what is left of it, and the lines below. -/
structure Cursor where
  text : List Char
  below : List Line
deriving DecidableEq, Repr

/-- The lines below, if nothing but a comment is left of the current one. -/
def Cursor.finishLine (c : Cursor) : Option (List Line) :=
  match c.text.dropWhile isSpace with
  | [] => some c.below
  | '#' :: _ => some c.below
  | _ => none

open scoped CoreInstances

/-- A bound on the number of characters and lines ahead. -/
def Cursor.size (c : Cursor) : Nat :=
  c.text.length + (c.below.map fun l => l.indent + l.text.length + 1).sum + 1

/-- The number of characters that a key may have before its colon. -/
def maxKeyLength : Nat :=
  1024

/-- What follows the colon that makes a key of the text between two places. A key stands on one
line with its colon. -/
def Cursor.colon? (start stop : Cursor) : Option (List Char) :=
  match stop.text.dropWhile isSpace with
  | ':' :: rest =>
    if stop.below.length = start.below.length ∧
        start.text.length ≤ maxKeyLength + 1 + rest.length then some rest
    else none
  | _ => none

/-- Whether the character is an indicator of flow collections. -/
def isFlowIndicator (c : Char) : Bool :=
  c == ',' || c == '[' || c == ']' || c == '{' || c == '}'

/-- Whether the character begins something else than a plain scalar. -/
def isIndicator (c : Char) : Bool :=
  isFlowIndicator c || "-?:#&*!|>'\"%@\x60".toList.contains c

/-- Whether a plain scalar begins here. Outside of flow collections some indicators may begin one
if no space follows them. -/
def startsPlain (inFlow : Bool) : List Char → Bool
  | [] => false
  | c :: rest =>
    (!isIndicator c && !isSpace c) || (c == '-' && !atSpace rest) ||
      (!inFlow && (c == '?' || c == ':') && !atSpace rest)

/-- Whether a colon before this text ends a plain scalar. -/
def endsAtColon (inFlow : Bool) (rest : List Char) : Bool :=
  atSpace rest || (inFlow && rest.head?.any fun c => isFlowIndicator c || c == '?')

/-- The part of a line that belongs to a plain scalar, and the rest of the line. `afterSpace` says
whether a space stands directly before. -/
def plainSpan (inFlow : Bool) : Bool → List Char → List Char × List Char
  | _, [] => ([], [])
  | afterSpace, c :: rest =>
    if (c == '#' && afterSpace) || (c == ':' && endsAtColon inFlow rest) ||
        (inFlow && isFlowIndicator c) then
      ([], c :: rest)
    else
      let (content, rest) := plainSpan inFlow (isSpace c) rest
      (c :: content, rest)

/-- A plain scalar outside of flow collections, in lines that are indented at least by `low`; none
if a colon makes a key of it. The white space after it belongs to it up to the next token, and so
may hold tabs once a line is indented. -/
def plainLines (low : Nat) (content : List Char) : List Line → Option (Value × List Line)
  | [] => some (.plain content, [])
  | l :: below =>
    if l.isTabbed low then none
    else
      match l.text.dropWhile isSpace with
      | [] => plainLines low content below
      | '#' :: _ => some (.plain content, below)
      | text =>
        if l.indent < low then some (.plain content, l :: below)
        else
          let (more, rest) := plainSpan false false text
          let content := content ++ ' ' :: trimEnd more
          match rest with
          | [] => plainLines low content below
          | '#' :: _ => some (.plain content, below)
          | _ => none

/-- A plain scalar that begins within a line. -/
def plainScalar (low : Nat) (c : Cursor) : Option (Value × List Line) :=
  let (content, rest) := plainSpan false false c.text
  match rest with
  | [] => plainLines low (trimEnd content) c.below
  | '#' :: _ => some (.plain (trimEnd content), c.below)
  | _ => none

/-- The value of a hexadecimal digit. -/
def hexValue? (c : Char) : Option Nat :=
  if c.isDigit then some (c.toNat - '0'.toNat)
  else if 'a' ≤ c ∧ c ≤ 'f' then some (c.toNat - 'a'.toNat + 10)
  else if 'A' ≤ c ∧ c ≤ 'F' then some (c.toNat - 'A'.toNat + 10)
  else none

/-- The character of a code point. -/
def charOfCode? (code : Nat) : Option Char :=
  if code.isValidChar then some (Char.ofNat code) else none

/-- The character of a hexadecimal code of so many digits, and what follows it. -/
def hexEscape? (digits : Nat) (cs : List Char) : Option (Char × List Char) := do
  if cs.length < digits then none
  else
    let values ← (cs.take digits).mapM hexValue?
    let c ← charOfCode? (values.foldl (16 * · + ·) 0)
    return (c, cs.drop digits)

/-- The character that an escape in double quotes means, and what follows it. -/
def escape? : List Char → Option (Char × List Char)
  | [] => none
  | c :: rest =>
    match c with
    | '0' => some ('\x00', rest)
    | 'a' => some ('\x07', rest)
    | 'b' => some ('\x08', rest)
    | 't' => some ('\t', rest)
    | '\t' => some ('\t', rest)
    | 'n' => some ('\n', rest)
    | 'v' => some ('\x0b', rest)
    | 'f' => some ('\x0c', rest)
    | 'r' => some ('\r', rest)
    | 'e' => some ('\x1b', rest)
    | ' ' => some (' ', rest)
    | '"' => some ('"', rest)
    | '/' => some ('/', rest)
    | '\\' => some ('\\', rest)
    | 'N' => some ('\x85', rest)
    | '_' => some ('\xa0', rest)
    | 'L' => some ('\u2028', rest)
    | 'P' => some ('\u2029', rest)
    | 'x' => hexEscape? 2 rest
    | 'u' => hexEscape? 4 rest
    | 'U' => hexEscape? 8 rest
    | _ => none

/-- The content of a quoted scalar after its opening quote, with what was read of it in reverse,
and the place after the closing quote. The first argument bounds the number of steps. -/
def quotedFrom (quote : Char) : Nat → List Char → Cursor → Option (List Char × Cursor)
  | 0, _, _ => none
  | steps + 1, content, ⟨text, below⟩ =>
    match text with
    | [] =>
      match below with
      | [] => none
      | l :: below =>
        quotedFrom quote steps (' ' :: content.dropWhile isSpace)
          ⟨l.text.dropWhile isSpace, below⟩
    | c :: rest =>
      if c = quote then
        match quote, rest with
        | '\'', '\'' :: rest => quotedFrom quote steps ('\'' :: content) ⟨rest, below⟩
        | _, _ => some (content.reverse, ⟨rest, below⟩)
      else if quote = '"' ∧ c = '\\' then
        match rest, below with
        | [], l :: below =>
          quotedFrom quote steps content ⟨l.text.dropWhile isSpace, below⟩
        | _, _ =>
          match escape? rest with
          | some (c, rest) => quotedFrom quote steps (c :: content) ⟨rest, below⟩
          | none => none
      else quotedFrom quote steps (c :: content) ⟨rest, below⟩

/-- The content of a quoted scalar at a place after its opening quote. -/
def quotedScalar (quote : Char) (c : Cursor) : Option (Value × Cursor) :=
  (quotedFrom quote c.size [] c).map fun (content, c) => (.quoted content, c)

end ElTemplate.Yaml
