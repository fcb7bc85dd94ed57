import ElTemplate.Parser.Expression

/-!
# The grammar of templates

Which token sequences spell which trees, said without a parser. A phrase stands for one node; only
argument lists stand for any number of them. A derivation relates the tokens ahead to the nodes and
to the tokens left over, so that the one rule that looks beyond its own tokens can be stated: an
identifier by itself is not the qualifier of a call.

Identifiers and calls have index zero in these trees. Indices follow from the order of names, and
are no matter of grammar.
-/

namespace ElTemplate

/-- Whether the node is an access, which arguments turn into a method call. -/
def Node.isAccess : Node → Bool
  | property .. => true
  | item .. => true
  | _ => false

namespace Grammar

/-- The kind of the token ahead. -/
def kindOf (ts : List Token) : Token.Kind :=
  (ts.head?.map Token.kind).getD .eof

@[simp] theorem kindOf_nil : kindOf [] = .eof := rfl

@[simp] theorem kindOf_cons (t : Token) (ts : List Token) : kindOf (t :: ts) = t.kind := rfl

/-- Whether the tokens behind an identifier make it the qualifier of a call: a colon, an
identifier and a parenthesis. -/
def QualifiesCall (ts : List Token) : Prop :=
  kindOf ts = .colon ∧ kindOf (ts.drop 1) = .identifier ∧ kindOf (ts.drop 2) = .leftParen

instance (ts : List Token) : Decidable (QualifiesCall ts) :=
  inferInstanceAs (Decidable (_ ∧ _ ∧ _))

/-- What can be derived. -/
inductive Phrase where
  /-- A conditional, or a chain of the last tier by itself. -/
  | expression
  /-- Operands with binary operators of the first tiers between them. -/
  | chain (tier : Nat)
  | unary
  /-- A primary with access steps. -/
  | value
  | primary
  /-- Arguments in parentheses. -/
  | arguments
  /-- Further arguments, a comma before each. -/
  | further
deriving DecidableEq, Repr

/-- The tokens ahead begin with a phrase for the nodes, and leave the last tokens over. -/
inductive Derives (features : FeatureSet) :
    Phrase → List Token → List Node → List Token → Prop where
  | condition {ts rest : List Token} {c : Node}
      (chain : Derives features (.chain BinaryOp.tiers) ts [c] rest) :
      Derives features .expression ts [c] rest
  | ternary {ts ts₁ ts₂ rest : List Token} {question colon : Token} {c y n : Node}
      (condition : Derives features (.chain BinaryOp.tiers) ts [c] (question :: ts₁))
      (hquestion : question.kind = .question)
      (yes : Derives features .expression ts₁ [y] (colon :: ts₂))
      (hcolon : colon.kind = .colon)
      (no : Derives features .expression ts₂ [n] rest) :
      Derives features .expression ts [.ternary c y n] rest
  | operand {ts rest : List Token} {x : Node} (unary : Derives features .unary ts [x] rest) :
      Derives features (.chain 0) ts [x] rest
  | lift {ts rest : List Token} {tier : Nat} {x : Node}
      (lower : Derives features (.chain tier) ts [x] rest) :
      Derives features (.chain (tier + 1)) ts [x] rest
  | binary {ts ts₁ rest : List Token} {tier : Nat} {operator : Token} {op : BinaryOp}
      {l r : Node}
      (left : Derives features (.chain (tier + 1)) ts [l] (operator :: ts₁))
      (hop : BinaryOp.ofKind? operator.kind = some op) (htier : op.tier = tier + 1)
      (right : Derives features (.chain tier) ts₁ [r] rest) :
      Derives features (.chain (tier + 1)) ts [.binary op l r] rest
  | unary {ts rest : List Token} {operator : Token} {op : UnaryOp} {x : Node}
      (hop : UnaryOp.ofKind? operator.kind = some op)
      (operand : Derives features .unary ts [x] rest) :
      Derives features .unary (operator :: ts) [.unary op x] rest
  | value {ts rest : List Token} {x : Node} (value : Derives features .value ts [x] rest) :
      Derives features .unary ts [x] rest
  | primary {ts rest : List Token} {x : Node} (primary : Derives features .primary ts [x] rest) :
      Derives features .value ts [x] rest
  | property {ts rest : List Token} {dot name : Token} {base : Node}
      (value : Derives features .value ts [base] (dot :: name :: rest))
      (hdot : dot.kind = .dot) (hname : name.kind = .identifier) :
      Derives features .value ts [.property base name.image (!base.isLiteral)] rest
  | item {ts ts₁ rest : List Token} {opening closing : Token} {base key : Node}
      (value : Derives features .value ts [base] (opening :: ts₁))
      (hopening : opening.kind = .leftBracket)
      (index : Derives features .expression ts₁ [key] (closing :: rest))
      (hclosing : closing.kind = .rightBracket) :
      Derives features .value ts [.item base key (!base.isLiteral)] rest
  | method {ts ts₁ rest : List Token} {target : Node} {args : List Node}
      (value : Derives features .value ts [target] ts₁) (access : target.isAccess)
      (enabled : features.methodInvocations)
      (arguments : Derives features .arguments ts₁ args rest) :
      Derives features .value ts [.method target args] rest
  | identifier {rest : List Token} {name : Token} (hname : name.kind = .identifier)
      (alone : ¬ QualifiesCall rest) :
      Derives features .primary (name :: rest) [.identifier name.image 0] rest
  | call {ts rest : List Token} {name : Token} {args : List Node}
      (hname : name.kind = .identifier)
      (arguments : Derives features .arguments ts args rest) :
      Derives features .primary (name :: ts) [.call none name.image 0 args] rest
  | qualifiedCall {ts rest : List Token} {qualifier colon name : Token} {args : List Node}
      (hqualifier : qualifier.kind = .identifier) (hcolon : colon.kind = .colon)
      (hname : name.kind = .identifier)
      (arguments : Derives features .arguments ts args rest) :
      Derives features .primary (qualifier :: colon :: name :: ts)
        [.call (some qualifier.image) name.image 0 args] rest
  | bracket {ts rest : List Token} {opening closing : Token} {inner : Node}
      (hopening : opening.kind = .leftParen)
      (expression : Derives features .expression ts [inner] (closing :: rest))
      (hclosing : closing.kind = .rightParen) :
      Derives features .primary (opening :: ts) [.bracket inner] rest
  | literal {rest : List Token} {t : Token} {value : Literal}
      (hvalue : Literal.ofToken? t = some (.ok value)) :
      Derives features .primary (t :: rest) [.literal value] rest
  | noArguments {rest : List Token} {opening closing : Token}
      (hopening : opening.kind = .leftParen) (hclosing : closing.kind = .rightParen) :
      Derives features .arguments (opening :: closing :: rest) [] rest
  | arguments {ts ts₁ rest : List Token} {opening closing : Token} {arg : Node}
      {args : List Node} (hopening : opening.kind = .leftParen)
      (first : Derives features .expression ts [arg] ts₁)
      (more : Derives features .further ts₁ args (closing :: rest))
      (hclosing : closing.kind = .rightParen) :
      Derives features .arguments (opening :: ts) (arg :: args) rest
  | noFurther {rest : List Token} : Derives features .further rest [] rest
  | further {ts ts₁ rest : List Token} {comma : Token} {arg : Node} {args : List Node}
      (hcomma : comma.kind = .comma) (next : Derives features .expression ts [arg] ts₁)
      (more : Derives features .further ts₁ args rest) :
      Derives features .further (comma :: ts) (arg :: args) rest

/-- The tokens ahead begin with a block. -/
inductive Block (features : FeatureSet) (deferred : Bool) :
    List Token → Node → List Token → Prop where
  | mk {ts rest : List Token} {opening closing : Token} {child : Node}
      (hopening : opening.kind = if deferred then .startDeferred else .startDynamic)
      (expression : Derives features .expression ts [child] (closing :: rest))
      (hclosing : closing.kind = .endEval) :
      Block features deferred (opening :: ts) (.eval deferred child) rest

/-- The tokens are blocks with the same delimiter, with at most one text behind each. -/
inductive Parts (features : FeatureSet) (deferred : Bool) : List Token → List Node → Prop where
  | nil : Parts features deferred [] []
  | block {ts rest : List Token} {part : Node} {parts : List Node}
      (first : Block features deferred ts part rest) (more : Parts features deferred rest parts) :
      Parts features deferred ts (part :: parts)
  | blockText {ts rest : List Token} {text : Token} {part : Node} {parts : List Node}
      (first : Block features deferred ts part (text :: rest)) (htext : text.kind = .text)
      (more : Parts features deferred rest parts) :
      Parts features deferred ts (part :: .text text.image :: parts)

/-- The tokens are a template with this root, whose blocks are deferred or not. -/
inductive Sentence (features : FeatureSet) : List Token → Node → Bool → Prop where
  | empty : Sentence features [] (.text "") false
  | text {text : Token} (htext : text.kind = .text) :
      Sentence features [text] (.text text.image) false
  | block {deferred : Bool} {ts : List Token} {part : Node}
      (block : Block features deferred ts part []) : Sentence features ts part deferred
  | parts {deferred : Bool} {ts : List Token} {parts : List Node}
      (derived : Parts features deferred ts parts) (several : 1 < parts.length) :
      Sentence features ts (.composite parts) deferred
  | textParts {deferred : Bool} {ts : List Token} {text : Token} {parts : List Node}
      (htext : text.kind = .text) (derived : Parts features deferred ts parts)
      (some : parts ≠ []) :
      Sentence features (text :: ts) (.composite (.text text.image :: parts)) deferred

variable {features : FeatureSet} {phrase : Phrase} {ts rest : List Token} {nodes : List Node}

/-- What is left over is a suffix of what was ahead. -/
theorem Derives.suffix (h : Derives features phrase ts nodes rest) : rest <:+ ts := by
  induction h with
  | condition _ ih => exact ih
  | ternary _ _ _ _ _ first second third =>
    exact third.trans ((List.suffix_cons _ _).trans (second.trans
      ((List.suffix_cons _ _).trans first)))
  | operand _ ih => exact ih
  | lift _ ih => exact ih
  | binary _ _ _ _ first second => exact second.trans ((List.suffix_cons _ _).trans first)
  | unary _ _ ih => exact ih.trans (List.suffix_cons _ _)
  | value _ ih => exact ih
  | primary _ ih => exact ih
  | property _ _ _ ih => exact (List.suffix_cons _ _).trans ((List.suffix_cons _ _).trans ih)
  | item _ _ _ _ first second =>
    exact (List.suffix_cons _ _).trans (second.trans ((List.suffix_cons _ _).trans first))
  | method _ _ _ _ first second => exact second.trans first
  | identifier => exact List.suffix_cons _ _
  | call _ _ ih => exact ih.trans (List.suffix_cons _ _)
  | qualifiedCall _ _ _ _ ih =>
    exact ih.trans ((List.suffix_cons _ _).trans ((List.suffix_cons _ _).trans
      (List.suffix_cons _ _)))
  | bracket _ _ _ ih =>
    exact (List.suffix_cons _ _).trans (ih.trans (List.suffix_cons _ _))
  | literal => exact List.suffix_cons _ _
  | noArguments => exact (List.suffix_cons _ _).trans (List.suffix_cons _ _)
  | arguments _ _ _ _ first second =>
    exact (List.suffix_cons _ _).trans (second.trans (first.trans (List.suffix_cons _ _)))
  | noFurther => exact List.suffix_rfl
  | further _ _ _ first second => exact second.trans (first.trans (List.suffix_cons _ _))

/-- An operand is a chain of every tier. -/
theorem Derives.chain {x : Node} (operand : Derives features .unary ts [x] rest) (tier : Nat) :
    Derives features (.chain tier) ts [x] rest := by
  induction tier with
  | zero => exact .operand operand
  | succ tier ih => exact .lift ih

/-- A block around a value is a sentence. -/
theorem Sentence.ofValue {start closing : Token} {deferred : Bool} {x : Node}
    (hstart : start.kind = if deferred then .startDeferred else .startDynamic)
    (value : Derives features .value ts [x] [closing]) (hclosing : closing.kind = .endEval) :
    Sentence features (start :: ts) (.eval deferred x) deferred :=
  .block (.mk hstart (.condition ((Derives.value value).chain _)) hclosing)

end Grammar

end ElTemplate
