import ElTemplate.Proofs.Grammar.Names

/-!
# Nodes as trees

The nodes below a node, and the number of nodes on the longest path down from it. Neither depends on
the indices of names.
-/

namespace ElTemplate.Node

mutual

/-- The node and all nodes below it. -/
def subnodes : Node → List Node
  | text raw => [text raw]
  | eval deferred child => eval deferred child :: child.subnodes
  | literal value => [literal value]
  | identifier name index => [identifier name index]
  | property base name assignable => property base name assignable :: base.subnodes
  | item base key assignable => item base key assignable :: (base.subnodes ++ key.subnodes)
  | bracket inner => bracket inner :: inner.subnodes
  | unary op operand => unary op operand :: operand.subnodes
  | binary op left right => binary op left right :: (left.subnodes ++ right.subnodes)
  | ternary condition yes no =>
    ternary condition yes no :: (condition.subnodes ++ (yes.subnodes ++ no.subnodes))
  | call qualifier name index arguments =>
    call qualifier name index arguments :: subnodesAll arguments
  | method target arguments => method target arguments :: (target.subnodes ++ subnodesAll arguments)
  | composite parts => composite parts :: subnodesAll parts

/-- The nodes and all nodes below them. -/
def subnodesAll : List Node → List Node
  | [] => []
  | node :: rest => node.subnodes ++ subnodesAll rest

end

/-- Whether the node is a block. -/
def isBlock : Node → Bool
  | eval _ _ => true
  | _ => false

mutual

/-- The number of nodes on the longest path from the node to a leaf. -/
def height : Node → Nat
  | text _ => 1
  | eval _ child => child.height + 1
  | literal _ => 1
  | identifier _ _ => 1
  | property base _ _ => base.height + 1
  | item base key _ => max base.height key.height + 1
  | bracket inner => inner.height + 1
  | unary _ operand => operand.height + 1
  | binary _ left right => max left.height right.height + 1
  | ternary condition yes no => max condition.height (max yes.height no.height) + 1
  | call _ _ _ arguments => heightAll arguments + 1
  | method target arguments => max target.height (heightAll arguments) + 1
  | composite parts => heightAll parts + 1

/-- The greatest height of several trees. -/
def heightAll : List Node → Nat
  | [] => 0
  | node :: rest => max node.height (heightAll rest)

end

theorem height_pos (x : Node) : 0 < x.height := by
  cases x <;> simp only [height] <;> omega

mutual

theorem height_erase (x : Node) : x.erase.height = x.height := by
  cases x with
  | text raw => rfl
  | eval deferred child => simp only [erase, height, height_erase child]
  | literal value => rfl
  | identifier name index => rfl
  | property base name assignable => simp only [erase, height, height_erase base]
  | item base key assignable => simp only [erase, height, height_erase base, height_erase key]
  | bracket inner => simp only [erase, height, height_erase inner]
  | unary op operand => simp only [erase, height, height_erase operand]
  | binary op left right => simp only [erase, height, height_erase left, height_erase right]
  | ternary condition yes no =>
    simp only [erase, height, height_erase condition, height_erase yes, height_erase no]
  | call qualifier name index arguments =>
    simp only [erase, height, heightAll_eraseAll arguments]
  | method target arguments =>
    simp only [erase, height, height_erase target, heightAll_eraseAll arguments]
  | composite parts => simp only [erase, height, heightAll_eraseAll parts]

theorem heightAll_eraseAll (xs : List Node) : heightAll (eraseAll xs) = heightAll xs := by
  cases xs with
  | nil => rfl
  | cons x xs => simp only [eraseAll, heightAll, height_erase x, heightAll_eraseAll xs]

end

mutual

theorem subnodes_erase (x : Node) : x.erase.subnodes = x.subnodes.map erase := by
  cases x with
  | text raw => rfl
  | eval deferred child => simp only [erase, subnodes, List.map_cons, subnodes_erase child]
  | literal value => rfl
  | identifier name index => rfl
  | property base name assignable =>
    simp only [erase, subnodes, List.map_cons, subnodes_erase base]
  | item base key assignable =>
    simp only [erase, subnodes, List.map_cons, List.map_append, subnodes_erase base,
      subnodes_erase key]
  | bracket inner => simp only [erase, subnodes, List.map_cons, subnodes_erase inner]
  | unary op operand => simp only [erase, subnodes, List.map_cons, subnodes_erase operand]
  | binary op left right =>
    simp only [erase, subnodes, List.map_cons, List.map_append, subnodes_erase left,
      subnodes_erase right]
  | ternary condition yes no =>
    simp only [erase, subnodes, List.map_cons, List.map_append, subnodes_erase condition,
      subnodes_erase yes, subnodes_erase no]
  | call qualifier name index arguments =>
    simp only [erase, subnodes, List.map_cons, subnodesAll_eraseAll arguments]
  | method target arguments =>
    simp only [erase, subnodes, List.map_cons, List.map_append, subnodes_erase target,
      subnodesAll_eraseAll arguments]
  | composite parts => simp only [erase, subnodes, List.map_cons, subnodesAll_eraseAll parts]

theorem subnodesAll_eraseAll (xs : List Node) :
    subnodesAll (eraseAll xs) = (subnodesAll xs).map erase := by
  cases xs with
  | nil => rfl
  | cons x xs =>
    simp only [eraseAll, subnodesAll, List.map_append, subnodes_erase x, subnodesAll_eraseAll xs]

end

end ElTemplate.Node
