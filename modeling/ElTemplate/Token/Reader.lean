import ElTemplate.Token.Scanner

/-!
# Reading tokens with lookahead

A parser sees a current token, can move to the next one, and can ask for the kinds of tokens
further on. `Reader` does this on a scanner: tokens asked for ahead of time wait in a queue, and
only an empty queue lets the scanner work. The parser is written against `TokenSource`, so that it
can be reasoned about over plain sequences of tokens.
-/

namespace ElTemplate

/-- Something that tokens are read from. -/
class TokenSource (σ : Type) where
  /-- The token that the parser looks at. -/
  current : σ → Token
  /-- Make the next token the current one. -/
  advance : σ → Except ScanError σ
  /-- The kind of the token that is `index + 1` tokens behind the current one. -/
  ahead : Nat → σ → Except ScanError (Token.Kind × σ)

/-- A scanner with its current token and the tokens that were read ahead. -/
structure Reader where
  current : Token
  queue : List Token
  scanner : Scanner
deriving DecidableEq, Repr

namespace Reader

/-- A reader at the first token of a template. -/
def ofChars (source : List Char) : Except ScanError Reader :=
  match (Scanner.ofChars source).next with
  | (.ok token, scanner) => .ok ⟨token, [], scanner⟩
  | (.error e, _) => .error e

def advance (r : Reader) : Except ScanError Reader :=
  match r.queue with
  | token :: queue => .ok { r with current := token, queue }
  | [] =>
    match r.scanner.next with
    | (.ok token, scanner) => .ok ⟨token, [], scanner⟩
    | (.error e, _) => .error e

/-- Read `count` more tokens into the queue. -/
def fill (r : Reader) : Nat → Except ScanError Reader
  | 0 => .ok r
  | count + 1 =>
    match r.scanner.next with
    | (.ok token, scanner) => fill { r with queue := r.queue ++ [token], scanner } count
    | (.error e, _) => .error e

def ahead (index : Nat) (r : Reader) : Except ScanError (Token.Kind × Reader) := do
  let r ← r.fill (index + 1 - r.queue.length)
  return ((r.queue[index]?.getD r.current).kind, r)

instance : TokenSource Reader where
  current := Reader.current
  advance := Reader.advance
  ahead := Reader.ahead

end Reader

end ElTemplate
