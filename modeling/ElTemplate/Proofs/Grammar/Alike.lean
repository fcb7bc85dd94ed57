import ElTemplate.Proofs.Grammar.Basic
import ElTemplate.Proofs.Token.Literal
import ElTemplate.Proofs.Token.Scans

/-!
# Derivations of alike tokens

Alike tokens derive the same trees. The kinds of all tokens follow from the tree, so that tokens of
other kinds derive another one.
-/

namespace ElTemplate

namespace Grammar

variable {features : FeatureSet} {phrase : Phrase} {deferred : Bool} {ts ts' rest : List Token}
  {nodes parts : List Node} {root part : Node}

theorem kindOf_alike (h : List.Forall₂ Token.Alike ts ts') : kindOf ts = kindOf ts' := by
  cases h with
  | nil => rfl
  | cons alike _ => exact alike.kind

theorem forall₂_cons {t : Token} (h : List.Forall₂ Token.Alike (t :: ts) ts') :
    ∃ u us, ts' = u :: us ∧ t.Alike u ∧ List.Forall₂ Token.Alike ts us := by
  obtain ⟨u, us, alike, left, same⟩ := List.forall₂_cons_left_iff.mp h
  exact ⟨u, us, same, alike, left⟩

theorem qualifiesCall_alike (h : List.Forall₂ Token.Alike ts ts') :
    QualifiesCall ts ↔ QualifiesCall ts' := by
  rw [QualifiesCall, QualifiesCall, kindOf_alike h, kindOf_alike (List.forall₂_drop 1 h),
    kindOf_alike (List.forall₂_drop 2 h)]

/-- A phrase is derived from alike tokens as well. -/
theorem Derives.alike (h : Derives features phrase ts nodes rest)
    (same : List.Forall₂ Token.Alike ts ts') :
    ∃ rest', List.Forall₂ Token.Alike rest rest' ∧ Derives features phrase ts' nodes rest' := by
  induction h generalizing ts' with
  | condition _ ih =>
    obtain ⟨rest', left, derived⟩ := ih same
    exact ⟨rest', left, .condition derived⟩
  | ternary _ hquestion _ hcolon _ first second third =>
    obtain ⟨_, left, condition⟩ := first same
    obtain ⟨_, _, rfl, question, left⟩ := forall₂_cons left
    obtain ⟨_, left, yes⟩ := second left
    obtain ⟨_, _, rfl, colon, left⟩ := forall₂_cons left
    obtain ⟨rest', left, no⟩ := third left
    exact ⟨rest', left, .ternary condition (question.kind ▸ hquestion) yes (colon.kind ▸ hcolon) no⟩
  | operand _ ih =>
    obtain ⟨rest', left, derived⟩ := ih same
    exact ⟨rest', left, .operand derived⟩
  | lift _ ih =>
    obtain ⟨rest', left, derived⟩ := ih same
    exact ⟨rest', left, .lift derived⟩
  | binary _ hop htier _ first second =>
    obtain ⟨_, left, leftOperand⟩ := first same
    obtain ⟨_, _, rfl, operator, left⟩ := forall₂_cons left
    obtain ⟨rest', left, rightOperand⟩ := second left
    exact ⟨rest', left, .binary leftOperand (operator.kind ▸ hop) htier rightOperand⟩
  | unary hop _ ih =>
    obtain ⟨_, _, rfl, operator, left⟩ := forall₂_cons same
    obtain ⟨rest', left, derived⟩ := ih left
    exact ⟨rest', left, .unary (operator.kind ▸ hop) derived⟩
  | value _ ih =>
    obtain ⟨rest', left, derived⟩ := ih same
    exact ⟨rest', left, .value derived⟩
  | primary _ ih =>
    obtain ⟨rest', left, derived⟩ := ih same
    exact ⟨rest', left, .primary derived⟩
  | property _ hdot hname ih =>
    obtain ⟨_, left, derived⟩ := ih same
    obtain ⟨_, _, rfl, dot, left⟩ := forall₂_cons left
    obtain ⟨_, rest', rfl, name, left⟩ := forall₂_cons left
    rw [name.image (.inl hname)]
    exact ⟨rest', left, .property derived (dot.kind ▸ hdot) (name.kind ▸ hname)⟩
  | item _ hopening _ hclosing first second =>
    obtain ⟨_, left, base⟩ := first same
    obtain ⟨_, _, rfl, opening, left⟩ := forall₂_cons left
    obtain ⟨_, left, key⟩ := second left
    obtain ⟨_, rest', rfl, closing, left⟩ := forall₂_cons left
    exact ⟨rest', left, .item base (opening.kind ▸ hopening) key (closing.kind ▸ hclosing)⟩
  | method _ access enabled _ first second =>
    obtain ⟨_, left, target⟩ := first same
    obtain ⟨rest', left, arguments⟩ := second left
    exact ⟨rest', left, .method target access enabled arguments⟩
  | identifier hname alone =>
    obtain ⟨_, rest', rfl, name, left⟩ := forall₂_cons same
    rw [name.image (.inl hname)]
    rw [qualifiesCall_alike left] at alone
    exact ⟨rest', left, .identifier (name.kind ▸ hname) alone⟩
  | call hname _ ih =>
    obtain ⟨_, _, rfl, name, left⟩ := forall₂_cons same
    obtain ⟨rest', left, arguments⟩ := ih left
    rw [name.image (.inl hname)]
    exact ⟨rest', left, .call (name.kind ▸ hname) arguments⟩
  | qualifiedCall hqualifier hcolon hname _ ih =>
    obtain ⟨_, _, rfl, qualifier, left⟩ := forall₂_cons same
    obtain ⟨_, _, rfl, colon, left⟩ := forall₂_cons left
    obtain ⟨_, _, rfl, name, left⟩ := forall₂_cons left
    obtain ⟨rest', left, arguments⟩ := ih left
    rw [qualifier.image (.inl hqualifier), name.image (.inl hname)]
    exact ⟨rest', left, .qualifiedCall (qualifier.kind ▸ hqualifier) (colon.kind ▸ hcolon)
      (name.kind ▸ hname) arguments⟩
  | bracket hopening _ hclosing ih =>
    obtain ⟨_, _, rfl, opening, left⟩ := forall₂_cons same
    obtain ⟨_, left, inner⟩ := ih left
    obtain ⟨_, rest', rfl, closing, left⟩ := forall₂_cons left
    exact ⟨rest', left, .bracket (opening.kind ▸ hopening) inner (closing.kind ▸ hclosing)⟩
  | literal hvalue =>
    obtain ⟨_, rest', rfl, literal, left⟩ := forall₂_cons same
    exact ⟨rest', left, .literal (literal.literal ▸ hvalue)⟩
  | noArguments hopening hclosing =>
    obtain ⟨_, _, rfl, opening, left⟩ := forall₂_cons same
    obtain ⟨_, rest', rfl, closing, left⟩ := forall₂_cons left
    exact ⟨rest', left, .noArguments (opening.kind ▸ hopening) (closing.kind ▸ hclosing)⟩
  | arguments hopening _ _ hclosing first second =>
    obtain ⟨_, _, rfl, opening, left⟩ := forall₂_cons same
    obtain ⟨_, left, argument⟩ := first left
    obtain ⟨_, left, more⟩ := second left
    obtain ⟨_, rest', rfl, closing, left⟩ := forall₂_cons left
    exact ⟨rest', left, .arguments (opening.kind ▸ hopening) argument more
      (closing.kind ▸ hclosing)⟩
  | noFurther => exact ⟨ts', same, .noFurther⟩
  | further hcomma _ _ first second =>
    obtain ⟨_, _, rfl, comma, left⟩ := forall₂_cons same
    obtain ⟨_, left, argument⟩ := first left
    obtain ⟨rest', left, more⟩ := second left
    exact ⟨rest', left, .further (comma.kind ▸ hcomma) argument more⟩

theorem Block.alike (h : Block features deferred ts part rest)
    (same : List.Forall₂ Token.Alike ts ts') :
    ∃ rest', List.Forall₂ Token.Alike rest rest' ∧ Block features deferred ts' part rest' := by
  cases h with
  | mk hopening expression hclosing =>
    obtain ⟨_, _, rfl, opening, left⟩ := forall₂_cons same
    obtain ⟨_, left, child⟩ := expression.alike left
    obtain ⟨_, rest', rfl, closing, left⟩ := forall₂_cons left
    exact ⟨rest', left, .mk (opening.kind ▸ hopening) child (closing.kind ▸ hclosing)⟩

theorem Parts.alike (h : Parts features deferred ts parts)
    (same : List.Forall₂ Token.Alike ts ts') : Parts features deferred ts' parts := by
  induction h generalizing ts' with
  | nil =>
    cases same
    exact .nil
  | block first _ ih =>
    obtain ⟨_, left, block⟩ := first.alike same
    exact .block block (ih left)
  | blockText first htext _ ih =>
    obtain ⟨_, left, block⟩ := first.alike same
    obtain ⟨_, _, rfl, text, left⟩ := forall₂_cons left
    rw [text.image (.inr htext)]
    exact .blockText block (text.kind ▸ htext) (ih left)

/-- Alike tokens are a sentence with the same root. -/
theorem Sentence.alike (h : Sentence features ts root deferred)
    (same : List.Forall₂ Token.Alike ts ts') : Sentence features ts' root deferred := by
  cases h with
  | empty =>
    cases same
    exact .empty
  | text htext =>
    obtain ⟨_, _, rfl, text, left⟩ := forall₂_cons same
    cases left
    rw [text.image (.inr htext)]
    exact .text (text.kind ▸ htext)
  | block block =>
    obtain ⟨_, left, block⟩ := block.alike same
    cases left
    exact .block block
  | parts derived several => exact .parts (derived.alike same) several
  | textParts htext derived some =>
    obtain ⟨_, _, rfl, text, left⟩ := forall₂_cons same
    rw [text.image (.inr htext)]
    exact .textParts (text.kind ▸ htext) (derived.alike left) some

end Grammar

namespace Node

mutual

/-- The kinds of the tokens that the node is derived from. -/
def kinds : Node → List Token.Kind
  | text _ => [.text]
  | eval deferred child =>
    (if deferred then .startDeferred else .startDynamic) :: (child.kinds ++ [.endEval])
  | literal value => [value.kind]
  | identifier _ _ => [.identifier]
  | property base _ _ => base.kinds ++ [.dot, .identifier]
  | item base key _ => base.kinds ++ .leftBracket :: (key.kinds ++ [.rightBracket])
  | bracket inner => .leftParen :: (inner.kinds ++ [.rightParen])
  | unary op operand => op.kind :: operand.kinds
  | binary op left right => left.kinds ++ op.kind :: right.kinds
  | ternary condition yes no =>
    condition.kinds ++ .question :: (yes.kinds ++ .colon :: no.kinds)
  | call none _ _ arguments =>
    .identifier :: .leftParen :: (kindsArguments arguments ++ [.rightParen])
  | call (some _) _ _ arguments =>
    .identifier :: .colon :: .identifier :: .leftParen ::
      (kindsArguments arguments ++ [.rightParen])
  | method target arguments =>
    target.kinds ++ .leftParen :: (kindsArguments arguments ++ [.rightParen])
  | composite parts => kindsParts parts

/-- The kinds of the tokens of arguments. -/
def kindsArguments : List Node → List Token.Kind
  | [] => []
  | argument :: rest => argument.kinds ++ kindsFurther rest

/-- The kinds of the tokens of further arguments. -/
def kindsFurther : List Node → List Token.Kind
  | [] => []
  | argument :: rest => .comma :: (argument.kinds ++ kindsFurther rest)

/-- The kinds of the tokens of the parts of a template. -/
def kindsParts : List Node → List Token.Kind
  | [] => []
  | part :: rest => part.kinds ++ kindsParts rest

end

end Node

namespace Grammar

variable {features : FeatureSet} {phrase : Phrase} {deferred : Bool} {ts rest : List Token}
  {nodes parts : List Node} {root part : Node}

/-- The kinds of the tokens of a phrase. -/
def Phrase.kinds : Phrase → List Node → List Token.Kind
  | arguments, nodes => .leftParen :: (Node.kindsArguments nodes ++ [.rightParen])
  | further, nodes => Node.kindsFurther nodes
  | _, nodes => Node.kindsParts nodes

theorem Derives.kinds_eq (h : Derives features phrase ts nodes rest) :
    ts.map Token.kind = phrase.kinds nodes ++ rest.map Token.kind := by
  induction h with
  | condition _ ih => exact ih
  | operand _ ih => exact ih
  | lift _ ih => exact ih
  | value _ ih => exact ih
  | primary _ ih => exact ih
  | binary _ hop _ _ first second =>
    rw [List.map_cons, second, BinaryOp.eq_kind hop] at first
    simpa [Phrase.kinds, Node.kindsParts, Node.kinds] using first
  | unary hop _ ih =>
    rw [List.map_cons, ih, UnaryOp.eq_kind hop]
    rfl
  | literal hvalue =>
    rw [List.map_cons, Literal.eq_kind hvalue]
    rfl
  | _ =>
    simp_all [Phrase.kinds, Node.kindsParts, Node.kinds, Node.kindsArguments, Node.kindsFurther]

theorem Block.kinds_eq (h : Block features deferred ts part rest) :
    ts.map Token.kind = part.kinds ++ rest.map Token.kind := by
  cases h with
  | mk hopening expression hclosing =>
    have child := expression.kinds_eq
    rw [List.map_cons, hclosing] at child
    rw [List.map_cons, hopening, child]
    simp [Phrase.kinds, Node.kindsParts, Node.kinds]

theorem Parts.kinds_eq (h : Parts features deferred ts parts) :
    ts.map Token.kind = Node.kindsParts parts := by
  induction h with
  | nil => rfl
  | block first _ ih => rw [first.kinds_eq, ih, Node.kindsParts]
  | blockText first htext _ ih =>
    rw [first.kinds_eq, List.map_cons, htext, ih]
    rfl

/-- Two sentences with the same root have tokens of the same kinds, if the root is no text. -/
theorem Sentence.kinds_eq (h : Sentence features ts root deferred) (parted : root.isText = false) :
    ts.map Token.kind = root.kinds := by
  cases h with
  | empty => cases parted
  | text _ => cases parted
  | block block => simpa using block.kinds_eq
  | parts derived _ => exact derived.kinds_eq
  | textParts htext derived _ =>
    rw [List.map_cons, htext, derived.kinds_eq]
    rfl

end Grammar

end ElTemplate
