import ElTemplate.Text.Identifier
import ElTemplate.Number.Digits
import ElTemplate.Token.Basic

/-!
# Lexemes

What the next token is, decided from the characters ahead alone. Outside of blocks that is a block
delimiter or a run of text, inside an operator, a string, a number or a word. A lexeme says how many
characters it takes, so that nothing else has to know where it ends.
-/

namespace ElTemplate

/-- Why no token can be read. -/
inductive ScanFault where
  | incompleteOperator (c : Char)
  | invalidCharacter (c : Char)
  | invalidEscape (c : Char)
  | unterminatedString (fragment : String)
  /-- A token with the form of a float that is no decimal. -/
  | malformedFloat (image : String)
deriving DecidableEq, Repr

/-- A token without its place: kind, image, and the number of characters it takes. -/
structure Lexeme where
  kind : Token.Kind
  image : List Char
  length : Nat
deriving DecidableEq, Repr

namespace Lexeme

open Text

/-- The lexeme that is the first `length` characters as they stand. -/
def verbatim (kind : Token.Kind) (length : Nat) (cs : List Char) : Lexeme :=
  ⟨kind, cs.take length, length⟩

/-- The block delimiter that the text begins with. -/
def delimiter? : List Char → Option Token.Kind
  | '$' :: '{' :: _ => some .startDynamic
  | '#' :: '{' :: _ => some .startDeferred
  | _ => none

/-- The length of the text before the first delimiter that no backslash escapes, on top of
`length`. `escaped` says whether an odd run of backslashes stands directly before. -/
def textLength (escaped : Bool) (length : Nat) : List Char → Nat
  | [] => length
  | c :: rest =>
    if c = '\\' then textLength (!escaped) (length + 1) rest
    else if (delimiter? (c :: rest)).isSome && !escaped then length
    else textLength false (length + 1) rest

/-- The lexeme outside of blocks. -/
def ofText (cs : List Char) : Lexeme :=
  match delimiter? cs with
  | some kind => verbatim kind 2 cs
  | none => verbatim .text (textLength false 0 cs) cs

/-- The operators and brackets inside of blocks; where one begins another, the longer comes
first. -/
def operators : List (List Char × Token.Kind) :=
  [(['-', '>'], .arrow), (['&', '&'], .and), (['|', '|'], .or), (['=', '='], .eq),
   (['!', '='], .ne), (['<', '='], .le), (['>', '='], .ge), (['}'], .endEval), (['*'], .mul),
   (['/'], .div), (['%'], .mod), (['+'], .plus), (['-'], .minus), (['?'], .question),
   ([':'], .colon), (['['], .leftBracket), ([']'], .rightBracket), (['('], .leftParen),
   ([')'], .rightParen), ([','], .comma), (['.'], .dot), (['!'], .not), (['<'], .lt), (['>'], .gt)]

/-- The longest operator that the text begins with. -/
def operator? (cs : List Char) : Option (List Char × Token.Kind) :=
  operators.find? fun operator => operator.1.isPrefixOf cs

/-- The length of an exponent: a mark, an optional sign, and at least one digit; 0 if the text
begins with none. -/
def exponentLength : List Char → Nat
  | [] => 0
  | mark :: rest =>
    if mark = 'e' ∨ mark = 'E' then
      match rest with
      | [] => 0
      | sign :: digits =>
        if sign = '+' ∨ sign = '-' then
          if Digits.count digits = 0 then 0 else 2 + Digits.count digits
        else if Digits.count rest = 0 then 0 else 1 + Digits.count rest
    else 0

/-- Whether a number begins here: a digit, or a point before one. -/
def startsNumber : List Char → Bool
  | [] => false
  | c :: rest => c.isDigit || (c == '.' && rest.head?.any Char.isDigit)

/-- Whether the text after a number's point is a property name, so that the point is no part of
the number: `1.a` is a property of an integer, `1.e5` a float. -/
def namesProperty (cs : List Char) : Bool :=
  cs.head?.any isIdentifierStart && exponentLength cs == 0

/-- The kind and length of the number that the text begins with. -/
def numberExtent (cs : List Char) : Token.Kind × Nat :=
  let whole := Digits.count cs
  match cs.drop whole with
  | '.' :: tail =>
    if namesProperty tail then (.integer, whole)
    else
      let fraction := Digits.count tail
      (.float, whole + 1 + fraction + exponentLength (tail.drop fraction))
  | tail =>
    match exponentLength tail with
    | 0 => (.integer, whole)
    | exponent => (.float, whole + exponent)

/-- Whether a backslash in a string literal may stand before the character. -/
def isEscapable (c : Char) : Bool :=
  c == '\\' || c == '\'' || c == '"'

/-- The rest of a string literal after its opening quote and `length` characters in all, with the
content so far in reverse. `source` is the whole text from the opening quote on. -/
def stringRest (quote : Char) (source content : List Char) (length : Nat) :
    List Char → Except ScanFault Lexeme
  | [] => .error (.unterminatedString (String.ofList source))
  | c :: rest =>
    if c = '\\' then
      match rest with
      | [] => .error (.unterminatedString (String.ofList source))
      | escaped :: rest =>
        if isEscapable escaped then
          stringRest quote source (escaped :: content) (length + 2) rest
        else .error (.invalidEscape escaped)
    else if c = quote then .ok ⟨.string, content.reverse, length + 1⟩
    else stringRest quote source (c :: content) (length + 1) rest

/-- The lexeme inside a block, at a character that is no white space. -/
def ofBlock (c : Char) (rest : List Char) : Except ScanFault Lexeme :=
  let cs := c :: rest
  if startsNumber cs then
    let (kind, length) := numberExtent cs
    .ok (verbatim kind length cs)
  else
    match operator? cs with
    | some (spelling, kind) => .ok (verbatim kind spelling.length cs)
    | none =>
      if c = '&' ∨ c = '|' ∨ c = '=' then .error (.incompleteOperator c)
      else if c = '"' ∨ c = '\'' then stringRest c cs [] 1 rest
      else if isIdentifierStart c then
        let word := c :: rest.takeWhile isIdentifierPart
        .ok ⟨.ofWord (String.ofList word), word, word.length⟩
      else .error (.invalidCharacter c)

end Lexeme

end ElTemplate
