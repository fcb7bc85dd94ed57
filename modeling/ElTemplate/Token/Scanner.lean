import ElTemplate.Text.Blank
import ElTemplate.Token.Lexeme

/-!
# Scanning

A scanner holds the characters still ahead, the number of characters behind, and whether it is
inside a block. Each step gives one token and moves past it, or gives an error and stays where the
offending token would begin.
-/

namespace ElTemplate

/-- A token that cannot be read, with the offset where it begins. -/
structure ScanError where
  position : Nat
  fault : ScanFault
deriving DecidableEq, Repr

/-- What is wrong, in words. -/
def ScanFault.detail : ScanFault → String
  | .incompleteOperator c => "incomplete operator, expected '" ++ String.ofList [c, c] ++ "'"
  | .invalidCharacter _ => "invalid character"
  | .invalidEscape _ => "invalid escape sequence"
  | .unterminatedString _ => "unterminated string"
  | .malformedFloat _ => "malformed float literal"

/-- The source text at fault. -/
def ScanFault.fragment : ScanFault → String
  | .incompleteOperator c => String.ofList [c]
  | .invalidCharacter c => String.ofList [c]
  | .invalidEscape c => String.ofList ['\\', c]
  | .unterminatedString fragment => fragment
  | .malformedFloat image => image

def ScanError.message (e : ScanError) : String :=
  "lexical error at position " ++ toString e.position ++ ": " ++ e.fault.detail ++
    " (at '" ++ e.fault.fragment ++ "')"

/-- Where a scanner stands: in template text or inside a block. -/
inductive Scanner.Mode where
  | text
  | block
deriving DecidableEq, Repr

/-- A scanner between two tokens. -/
structure Scanner where
  mode : Scanner.Mode
  rest : List Char
  position : Nat
deriving DecidableEq, Repr

namespace Scanner

/-- The scanner before the first token of a template. -/
def ofChars (source : List Char) : Scanner :=
  ⟨.text, source, 0⟩

/-- The mode after a token: delimiters open a block, a closing brace ends it. -/
def Mode.after (mode : Mode) : Token.Kind → Mode
  | .startDynamic => .block
  | .startDeferred => .block
  | .endEval => .text
  | _ => mode

/-- Move past white space. -/
def skipBlanks (s : Scanner) : Scanner :=
  { s with
    rest := s.rest.dropWhile Text.isBlank
    position := s.position + (s.rest.takeWhile Text.isBlank).length }

/-- Move past a lexeme. -/
def accept (s : Scanner) (l : Lexeme) : Token × Scanner :=
  (⟨l.kind, String.ofList l.image, s.position⟩,
    ⟨s.mode.after l.kind, s.rest.drop l.length, s.position + l.length⟩)

/-- The token that stands for the end of the source. -/
def endOfInput (s : Scanner) : Token :=
  ⟨.eof, "", s.position⟩

/-- One token, or the error met instead of it, and the scanner after it. At the end of the source
every step gives the end-of-input token. -/
def next (s : Scanner) : Except ScanError Token × Scanner :=
  match s.mode with
  | .text =>
    match s.rest with
    | [] => (.ok s.endOfInput, s)
    | cs =>
      let (token, s) := s.accept (.ofText cs)
      (.ok token, s)
  | .block =>
    let s := s.skipBlanks
    match s.rest with
    | [] => (.ok s.endOfInput, s)
    | c :: cs =>
      match Lexeme.ofBlock c cs with
      | .ok lexeme =>
        let (token, s) := s.accept lexeme
        (.ok token, s)
      | .error fault => (.error ⟨s.position, fault⟩, s)

end Scanner

end ElTemplate
