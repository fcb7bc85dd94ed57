import ElTemplate.Node.Basic
import ElTemplate.Token.Lexeme

/-!
# Tokens as operators and literals

Which operator a token is, and which literal it spells. A token between two operands and the same
token before an operand are different operators. The binary operators come in six tiers; the
operators of a lower tier bind tighter.
-/

namespace ElTemplate

/-- The operator that a token is between two operands. -/
def BinaryOp.ofKind? : Token.Kind → Option BinaryOp
  | .mul => some .mul
  | .div => some .div
  | .mod => some .mod
  | .plus => some .add
  | .minus => some .sub
  | .lt => some .lt
  | .gt => some .gt
  | .le => some .le
  | .ge => some .ge
  | .eq => some .eq
  | .ne => some .ne
  | .and => some .and
  | .or => some .or
  | _ => none

/-- The tier of an operator; lower tiers bind tighter. -/
def BinaryOp.tier : BinaryOp → Nat
  | .mul | .div | .mod => 1
  | .add | .sub => 2
  | .lt | .gt | .le | .ge => 3
  | .eq | .ne => 4
  | .and => 5
  | .or => 6

/-- The number of tiers. -/
def BinaryOp.tiers : Nat := 6

/-- The operator of one tier that a token is. -/
def BinaryOp.ofTier? (tier : Nat) (kind : Token.Kind) : Option BinaryOp :=
  (ofKind? kind).filter (·.tier == tier)

/-- The operator that a token is before an operand. -/
def UnaryOp.ofKind? : Token.Kind → Option UnaryOp
  | .minus => some .minus
  | .not => some .not
  | .empty => some .empty
  | _ => none

/-- The literal that a token spells, if it is of a literal's kind. -/
def Literal.ofToken? (t : Token) : Option (Except ScanFault Literal) :=
  match t.kind with
  | .trueWord => some (.ok (.boolean true))
  | .falseWord => some (.ok (.boolean false))
  | .nullWord => some (.ok .null)
  | .string => some (.ok (.string t.image))
  | .integer => some (.ok (.ofDigits t.image.toList))
  | .float =>
    match Binary64.read? t.image.toList with
    | some value => some (.ok (.float value))
    | none => some (.error (.malformedFloat t.image))
  | _ => none

end ElTemplate
