/-!
# Lines of a YAML text

Block structure is a matter of lines and their indentation. A text is cut into lines at every line
break; a line is the number of its leading spaces and what follows them.
-/

namespace ElTemplate.Yaml

/-- A line, its indentation counted in spaces. -/
structure Line where
  indent : Nat
  text : List Char
deriving DecidableEq, Repr

/-- Whether the character ends a line. -/
def isBreak (c : Char) : Bool :=
  c == '\n' || c == '\r' || c == '\x85' || c == '\u2028' || c == '\u2029'

/-- The characters between line breaks. A carriage return and a line feed are one break. -/
def splitBreaks : List Char → List (List Char)
  | [] => [[]]
  | '\r' :: '\n' :: rest => [] :: splitBreaks rest
  | c :: rest =>
    if isBreak c then [] :: splitBreaks rest
    else match splitBreaks rest with
      | [] => [[c]]
      | line :: lines => (c :: line) :: lines

/-- Whether the character may stand in a YAML text at all. -/
def isPrintable (c : Char) : Bool :=
  let n := c.toNat
  n == 0x09 || n == 0x0A || n == 0x0D || (0x20 ≤ n && n ≤ 0x7E) || n == 0x85 ||
    (0xA0 ≤ n && n ≤ 0xFFFD) || 0x10000 ≤ n

/-- Whether the character separates tokens within a line. -/
def isSpace (c : Char) : Bool :=
  c == ' ' || c == '\t'

/-- Whether a token that ends before this text is followed by white space or the end of its
line. -/
def atSpace : List Char → Bool
  | [] => true
  | c :: _ => isSpace c

/-- The text without the spaces and tabs at its end. -/
def trimEnd (cs : List Char) : List Char :=
  (cs.reverse.dropWhile isSpace).reverse

namespace Line

def ofChars (cs : List Char) : Line :=
  ⟨(cs.takeWhile (· == ' ')).length, cs.dropWhile (· == ' ')⟩

/-- Whether nothing is left of a line, or only a comment. -/
def isIgnorable (l : Line) : Bool :=
  match l.text with
  | [] => true
  | c :: _ => c == '#'

/-- Whether a tab stands where the line would have to be indented by `low` spaces. -/
def isTabbed (low : Nat) (l : Line) : Bool :=
  l.indent < low && l.text.head? == some '\t'

/-- Whether the line is an entry of a block sequence. -/
def isItem (l : Line) : Bool :=
  match l.text with
  | '-' :: rest => atSpace rest
  | _ => false

/-- Whether the line begins with three of the character, as the marks around documents do. -/
def isMark (mark : Char) (l : Line) : Bool :=
  l.indent == 0 && l.text.take 3 == [mark, mark, mark] && atSpace (l.text.drop 3)

end Line

/-- The lines of a text. -/
def lines (cs : List Char) : List Line :=
  (splitBreaks cs).map Line.ofChars

/-- The lines from the first one on that is neither blank nor a comment. -/
def skipIgnorable (ls : List Line) : List Line :=
  ls.dropWhile Line.isIgnorable

end ElTemplate.Yaml
