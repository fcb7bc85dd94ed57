/-!
# Tokens

Outside of its blocks a template is text; a block, which a dollar or number sign and a brace open,
is made of operators, literals and identifiers. A token keeps its kind, its image and the offset of
its first character, counted in characters. The image of a string literal is its decoded content,
the image of every other token is its source text.
-/

namespace ElTemplate

/-- What a token is. -/
inductive Token.Kind where
  | startDynamic | startDeferred | endEval | text | eof
  | integer | float | string | trueWord | falseWord | nullWord | identifier
  | empty | instanceof
  | mul | div | mod | plus | minus | question | colon
  | leftBracket | rightBracket | leftParen | rightParen | comma | dot
  | and | or | not | le | lt | eq | ne | ge | gt | arrow
deriving DecidableEq, Repr, Inhabited

namespace Token.Kind

/-- The name of a kind in diagnostics. -/
def describe : Kind → String
  | startDynamic => "'$\x7b'"
  | startDeferred => "'#\x7b'"
  | endEval => "'\x7d'"
  | text => "<TEXT>"
  | eof => "<EOF>"
  | integer => "<INTEGER>"
  | float => "<FLOAT>"
  | string => "<STRING>"
  | trueWord => "'true'"
  | falseWord => "'false'"
  | nullWord => "'null'"
  | identifier => "<IDENTIFIER>"
  | empty => "'empty'"
  | instanceof => "'instanceof'"
  | mul => "'*'"
  | div => "'/'"
  | mod => "'%'"
  | plus => "'+'"
  | minus => "'-'"
  | question => "'?'"
  | colon => "':'"
  | leftBracket => "'['"
  | rightBracket => "']'"
  | leftParen => "'('"
  | rightParen => "')'"
  | comma => "','"
  | dot => "'.'"
  | and => "'&&'"
  | or => "'||'"
  | not => "'!'"
  | le => "'<='"
  | lt => "'<'"
  | eq => "'=='"
  | ne => "'!='"
  | ge => "'>='"
  | gt => "'>'"
  | arrow => "'->'"

/-- The reserved words. Those that stand for an operator have its kind. -/
def reservedWords : List (String × Kind) :=
  [("null", nullWord), ("true", trueWord), ("false", falseWord), ("empty", empty),
   ("instanceof", instanceof), ("div", div), ("mod", mod), ("not", not), ("and", and), ("or", or),
   ("le", le), ("lt", lt), ("eq", eq), ("ne", ne), ("ge", ge), ("gt", gt)]

/-- The kind of a word: a reserved word's own, else an identifier. -/
def ofWord (word : String) : Kind :=
  (reservedWords.lookup word).getD identifier

end Token.Kind

/-- A token of a template. -/
structure Token where
  kind : Token.Kind
  image : String
  position : Nat
deriving DecidableEq, Repr, Inhabited

/-- The quoted image of a token in diagnostics. -/
def Token.describe (t : Token) : String :=
  if t.kind = .eof then Token.Kind.eof.describe else "'" ++ t.image ++ "'"

end ElTemplate
