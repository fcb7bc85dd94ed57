import ElTemplate.Yaml.Scalar

/-!
# Block scalars

A scalar that begins with a sign, `|` or `>`, and holds the lines below that are indented further
than its parent. Its indentation is that of its first line unless the header gives it.
-/

namespace ElTemplate.Yaml

/-- Whether the line begins with the sign of a block scalar. -/
def Line.isBlockScalar (l : Line) : Bool :=
  l.text.head?.any fun c => c == '|' || c == '>'

/-- What stands after the sign of a block scalar: `+` keeps the line breaks at its end and `-` drops
them, a digit gives its indentation beyond that of its parent. -/
structure BlockHeader where
  ending : Option Char
  indent : Option Nat
deriving DecidableEq, Repr

/-- The header in what is left of a line. -/
def BlockHeader.ofText? (text : List Char) : Option BlockHeader :=
  let isMark (c : Char) : Bool := c == '+' || c == '-' || c.isDigit
  let marks := text.takeWhile isMark
  let digits := marks.filter Char.isDigit
  let signs := marks.filter (!·.isDigit)
  if digits.length ≤ 1 ∧ signs.length ≤ 1 ∧ '0' ∉ digits ∧
      ((text.dropWhile isMark).dropWhile isSpace).head?.all (· == '#') then
    some ⟨signs.head?, digits.head?.map fun c => c.toNat - '0'.toNat⟩
  else none

/-- The lines of a block scalar as one text. Where its lines fold, a single break between two lines
that do not begin with white space is a space, and of several breaks the first is dropped. -/
def joinLines (folds : Bool) : List (List Char) → List Char
  | [] => []
  | [line] => line
  | line :: next :: rest =>
    let folds? (l : List Char) : Bool := folds && l.head?.any (!isSpace ·)
    let separator :=
      if folds? line && folds? (((next :: rest).dropWhile List.isEmpty).headD []) then
        if next = [] then [] else [' ']
      else ['\n']
    line ++ separator ++ joinLines folds (next :: rest)

/-- The indentation of a block scalar: that of the first of its lines that is not blank, but not
less than that of a blank line before; none if that line has a tab among its indentation. -/
def blockIndent? (low : Nat) (header : BlockHeader) (below : List Line) : Option Nat :=
  match header.indent with
  | some n => some (low - 1 + n)
  | none =>
    let blank := below.takeWhile (·.text.isEmpty)
    let first := (below.dropWhile (·.text.isEmpty)).take 1
    if first.any (·.text.head? == some '\t') then none
    else some (((blank ++ first).map Line.indent).foldl max (max low 1))

/-- A block scalar in the lines below its header, within a block whose content is indented by
`low`. -/
def blockScalar (low : Nat) (folds : Bool) (below : List Line) (header : BlockHeader) :
    Option (Value × List Line) := do
  let indent ← blockIndent? low header below
  let inside (l : Line) : Bool := l.text.isEmpty || indent ≤ l.indent
  let rest := below.dropWhile inside
  if rest.head?.any (Line.isTabbed indent) then none
  else
    let lines := (below.takeWhile inside).map fun l =>
      List.replicate (l.indent - indent) ' ' ++ l.text
    let content := (lines.reverse.dropWhile List.isEmpty).reverse
    let breaks := (lines.length - content.length) + (if content = [] then 0 else 1) -
      (if rest = [] then 1 else 0)
    let kept := match header.ending with
      | some '+' => breaks
      | some _ => 0
      | none => if content = [] then 0 else min breaks 1
    return (.quoted (joinLines folds content ++ List.replicate kept '\n'), rest)

end ElTemplate.Yaml
