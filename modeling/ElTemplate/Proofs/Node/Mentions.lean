import ElTemplate.Proofs.Node.Registration

/-!
# Where names are used

A tree and the tokens that spell it tell which token is the name of a variable or of a call, and
which parenthesis closes the call. Walking along both at once gives all uses of names, ordered by
their last tokens: a call comes behind what its arguments use.
-/

namespace ElTemplate

/-- A use of a name, by a variable or a call. -/
structure Mention where
  /-- What is called, if it is a call. -/
  callee? : Option Callee
  /-- The token that is the name. -/
  name : Token
  /-- The last token: the closing parenthesis of a call, or the name of a variable. -/
  last : Token
deriving DecidableEq, Repr

namespace Mention

/-- The variable that the token is. -/
def ofVariable (name : Token) : Mention :=
  ⟨none, name, name⟩

/-- The name of a variable. -/
def identifier? (m : Mention) : Option String :=
  if m.callee?.isNone then some m.name.image else none

end Mention

namespace Node

/-- The number of tokens of a qualifier and its colon. -/
def qualifierWidth (qualifier : Option String) : Nat :=
  if qualifier.isSome then 2 else 0

mutual

/-- The number of tokens that spell the node. -/
def width : Node → Nat
  | text _ => 1
  | eval _ child => child.width + 2
  | literal _ => 1
  | identifier _ _ => 1
  | property base _ _ => base.width + 2
  | item base key _ => base.width + key.width + 2
  | bracket inner => inner.width + 2
  | unary _ operand => operand.width + 1
  | binary _ left right => left.width + right.width + 1
  | ternary condition yes no => condition.width + yes.width + no.width + 2
  | call qualifier _ _ arguments => qualifierWidth qualifier + max 1 (widthAll 1 arguments) + 2
  | method target arguments => target.width + max 1 (widthAll 1 arguments) + 1
  | composite parts => widthAll 0 parts

/-- The number of tokens that spell the nodes, with so many more behind each of them. -/
def widthAll (gap : Nat) : List Node → Nat
  | [] => 0
  | node :: rest => node.width + gap + widthAll gap rest

end

mutual

/-- The uses of names in the node, which is spelled by the tokens ahead. -/
def mentions : Node → List Token → List Mention
  | text _, _ => []
  | eval _ child, ts => child.mentions (ts.drop 1)
  | literal _, _ => []
  | identifier _ _, ts => [.ofVariable (ts.getD 0 default)]
  | property base _ _, ts => base.mentions ts
  | item base key _, ts => base.mentions ts ++ key.mentions (ts.drop (base.width + 1))
  | bracket inner, ts => inner.mentions (ts.drop 1)
  | unary _ operand, ts => operand.mentions (ts.drop 1)
  | binary _ left right, ts => left.mentions ts ++ right.mentions (ts.drop (left.width + 1))
  | ternary condition yes no, ts =>
    condition.mentions ts ++ yes.mentions (ts.drop (condition.width + 1)) ++
      no.mentions (ts.drop (condition.width + yes.width + 2))
  | call qualifier name _ arguments, ts =>
    let ts := ts.drop (qualifierWidth qualifier)
    mentionsAll 1 arguments (ts.drop 2) ++
      [⟨some ⟨qualifier, name, arguments.length⟩, ts.getD 0 default,
        ts.getD (max 1 (widthAll 1 arguments) + 1) default⟩]
  | method target arguments, ts =>
    target.mentions ts ++ mentionsAll 1 arguments (ts.drop (target.width + 1))
  | composite parts, ts => mentionsAll 0 parts ts

/-- The uses of names in the nodes, which the tokens ahead spell with so many more behind each. -/
def mentionsAll (gap : Nat) : List Node → List Token → List Mention
  | [], _ => []
  | node :: rest, ts => node.mentions ts ++ mentionsAll gap rest (ts.drop (node.width + gap))

end

mutual

/-- The calls are those of the tree, in the same order. -/
theorem filterMap_callee?_mentions (x : Node) (ts : List Token) :
    (x.mentions ts).filterMap Mention.callee? = x.callees := by
  cases x with
  | text raw => rfl
  | eval deferred child => exact filterMap_callee?_mentions child _
  | literal value => rfl
  | identifier name index => rfl
  | property base name assignable => exact filterMap_callee?_mentions base _
  | item base key assignable =>
    rw [mentions, callees, List.filterMap_append, filterMap_callee?_mentions base,
      filterMap_callee?_mentions key]
  | bracket inner => exact filterMap_callee?_mentions inner _
  | unary op operand => exact filterMap_callee?_mentions operand _
  | binary op left right =>
    rw [mentions, callees, List.filterMap_append, filterMap_callee?_mentions left,
      filterMap_callee?_mentions right]
  | ternary condition yes no =>
    rw [mentions, callees, List.filterMap_append, List.filterMap_append,
      filterMap_callee?_mentions condition, filterMap_callee?_mentions yes,
      filterMap_callee?_mentions no, List.append_assoc]
  | call qualifier name index arguments =>
    rw [mentions, callees, List.filterMap_append, filterMap_callee?_mentionsAll arguments]
    rfl
  | method target arguments =>
    rw [mentions, callees, List.filterMap_append, filterMap_callee?_mentions target,
      filterMap_callee?_mentionsAll arguments]
  | composite parts => exact filterMap_callee?_mentionsAll parts 0 ts

theorem filterMap_callee?_mentionsAll (xs : List Node) (gap : Nat) (ts : List Token) :
    (mentionsAll gap xs ts).filterMap Mention.callee? = calleesAll xs := by
  cases xs with
  | nil => rfl
  | cons x xs =>
    rw [mentionsAll, calleesAll, List.filterMap_append, filterMap_callee?_mentions x,
      filterMap_callee?_mentionsAll xs]

end

section Reindexing

variable (places : Places)

mutual

theorem width_reindex (x : Node) : (x.reindex places).width = x.width := by
  cases x with
  | text raw => rfl
  | eval deferred child => simp only [reindex, width, width_reindex child]
  | literal value => rfl
  | identifier name index => rfl
  | property base name assignable => simp only [reindex, width, width_reindex base]
  | item base key assignable => simp only [reindex, width, width_reindex base, width_reindex key]
  | bracket inner => simp only [reindex, width, width_reindex inner]
  | unary op operand => simp only [reindex, width, width_reindex operand]
  | binary op left right =>
    simp only [reindex, width, width_reindex left, width_reindex right]
  | ternary condition yes no =>
    simp only [reindex, width, width_reindex condition, width_reindex yes, width_reindex no]
  | call qualifier name index arguments =>
    simp only [reindex, width, widthAll_reindexAll arguments]
  | method target arguments =>
    simp only [reindex, width, width_reindex target, widthAll_reindexAll arguments]
  | composite parts => simp only [reindex, width, widthAll_reindexAll parts]

theorem widthAll_reindexAll (xs : List Node) (gap : Nat) :
    widthAll gap (reindexAll places xs) = widthAll gap xs := by
  cases xs with
  | nil => rfl
  | cons x xs => simp only [reindexAll, widthAll, width_reindex x, widthAll_reindexAll xs]

end

mutual

/-- The indices of names do not matter to where they are used. -/
theorem mentions_reindex (x : Node) (ts : List Token) :
    (x.reindex places).mentions ts = x.mentions ts := by
  cases x with
  | text raw => rfl
  | eval deferred child => simp only [reindex, mentions, mentions_reindex child]
  | literal value => rfl
  | identifier name index => rfl
  | property base name assignable => simp only [reindex, mentions, mentions_reindex base]
  | item base key assignable =>
    simp only [reindex, mentions, width_reindex, mentions_reindex base, mentions_reindex key]
  | bracket inner => simp only [reindex, mentions, mentions_reindex inner]
  | unary op operand => simp only [reindex, mentions, mentions_reindex operand]
  | binary op left right =>
    simp only [reindex, mentions, width_reindex, mentions_reindex left, mentions_reindex right]
  | ternary condition yes no =>
    simp only [reindex, mentions, width_reindex, mentions_reindex condition, mentions_reindex yes,
      mentions_reindex no]
  | call qualifier name index arguments =>
    simp only [reindex, mentions, widthAll_reindexAll, length_reindexAll,
      mentionsAll_reindexAll arguments]
  | method target arguments =>
    simp only [reindex, mentions, width_reindex, mentions_reindex target,
      mentionsAll_reindexAll arguments]
  | composite parts => simp only [reindex, mentions, mentionsAll_reindexAll parts]

theorem mentionsAll_reindexAll (xs : List Node) (gap : Nat) (ts : List Token) :
    mentionsAll gap (reindexAll places xs) ts = mentionsAll gap xs ts := by
  cases xs with
  | nil => rfl
  | cons x xs =>
    simp only [reindexAll, mentionsAll, width_reindex, mentions_reindex x,
      mentionsAll_reindexAll xs]

end

end Reindexing

end Node

end ElTemplate
