import ElTemplate.Proofs.Grammar.Boundaries
import ElTemplate.Proofs.Parser.Limits

/-!
# What is derived is read

If the tokens ahead begin with a phrase, and the token behind it does not go on with it, then the
parser for the phrase reads its node, unless a limit stops it. The node fits the limits exactly if
none does.

A chain and a value are read from the left, while their derivations end on the right. So their
statements say where the loop over operators or steps has got to when it has read the phrase, with
the levels of the phrase still open.
-/

namespace ElTemplate

open ParserState (before)

namespace Parser

variable {features : FeatureSet} {size stop budget folds steps nesting depth : Nat}
  {ts rest : List Token} {final : Except ScanError Nat} {names names' : Names}
  {left right base : Node} {fits : Prop}

theorem chainFrom_of_none {operand : Parser Tape Node} {operator? : Token.Kind → Option BinaryOp}
    (h : operator? (Grammar.kindOf rest) = none) :
    chainFrom operand operator? budget left folds
        (before rest final names nesting (depth + folds)) =
      .ok (left, before rest final names nesting depth) := by
  rw [chainFrom.eq_def, kind_before, h]
  exact bind_of_ok (release_before folds)

/-- Reading one more operator and its right operand. -/
theorem leads_chainFrom {operand : Parser Tape Node} {operator? : Token.Kind → Option BinaryOp}
    {operator : Token} {op : BinaryOp} (h : operator? operator.kind = some op)
    (operandLeads : depth + folds + 1 ≤ maxDepth →
      Leads (operand (before ts (.ok stop) names nesting (depth + folds + 1))) fits
        (.ok (right, before rest (.ok stop) names' nesting (depth + folds + 1)))) :
    Leads
      (chainFrom operand operator? (maxDepth - folds) left folds
        (before (operator :: ts) (.ok stop) names nesting (depth + folds)))
      (depth + folds < maxDepth ∧ fits)
      (chainFrom operand operator? (maxDepth - (folds + 1)) (.binary op left right) (folds + 1)
        (before rest (.ok stop) names' nesting (depth + (folds + 1)))) := by
  rw [chainFrom.eq_def operand operator? (maxDepth - folds), kind_before, Grammar.kindOf_cons, h]
  by_cases room : depth + folds < maxDepth
  · have more : maxDepth - folds = maxDepth - (folds + 1) + 1 := by omega
    rw [more]
    refine leads_deepen.bind fun _ => Leads.bind_ok advance_before ?_
    exact (operandLeads room).bind_pure rfl
  · refine ⟨fun both => absurd both.1 room, fun _ => ?_⟩
    cases maxDepth - folds with
    | zero => exact refuse_depth _
    | succ budget =>
      obtain ⟨e, limit, stopped⟩ := leads_deepen.stops room
      exact ⟨e, limit, bind_of_error stopped⟩

/-- What a value does once it has read a node: an access may turn out to be a method call, and
then the steps go on. -/
def resume (features : FeatureSet) (size : Nat) (expression : Parser Tape Node) (access : Bool)
    (budget : Nat) (base : Node) (steps : Nat) : Parser Tape Node :=
  if access then
    invocation features size expression base >>= fun value =>
      stepsFrom features size expression budget value steps
  else stepsFrom features size expression budget base steps

variable {expression : Parser Tape Node}

/-- Without arguments ahead the steps go on at once. -/
theorem resume_of_ne (h : Grammar.kindOf rest ≠ .leftParen) (access : Bool) :
    resume features size expression access budget base steps
        (before rest final names nesting depth) =
      stepsFrom features size expression budget base steps
        (before rest final names nesting depth) := by
  cases access with
  | false => rfl
  | true =>
    have plain : invocation features size expression base
        (before rest final names nesting depth) =
          .ok (base, before rest final names nesting depth) := by
      rw [invocation, kind_before, if_neg fun both => h both.2]
      rfl
    exact bind_of_ok plain

theorem stepsFrom_of_ends (h : Grammar.continuesValue (Grammar.kindOf rest) = false) :
    stepsFrom features size expression budget base steps
        (before rest final names nesting (depth + steps)) =
      .ok (base, before rest final names nesting depth) := by
  obtain ⟨dot, bracket, -⟩ := Grammar.ne_of_continuesValue h
  rw [stepsFrom.eq_def, bind_of_ok (accessKey?_of_ne dot bracket)]
  exact bind_of_ok (release_before steps)

/-- Reading one more access step. -/
theorem leads_stepsFrom {key : AccessKey}
    (keyLeads : Leads (accessKey? expression (before ts (.ok stop) names nesting (depth + steps)))
      fits (.ok (some key, before rest (.ok stop) names' nesting (depth + steps)))) :
    Leads
      (stepsFrom features size expression (maxDepth - steps) base steps
        (before ts (.ok stop) names nesting (depth + steps)))
      (fits ∧ depth + steps < maxDepth)
      (resume features size expression true (maxDepth - (steps + 1)) (key.access base) (steps + 1)
        (before rest (.ok stop) names' nesting (depth + (steps + 1)))) := by
  rw [stepsFrom.eq_def]
  apply keyLeads.bind
  intro _
  by_cases room : depth + steps < maxDepth
  · have more : maxDepth - steps = maxDepth - (steps + 1) + 1 := by omega
    rw [more]
    exact leads_deepen.bind_pure rfl
  · refine ⟨fun within => absurd within room, fun _ => ?_⟩
    cases maxDepth - steps with
    | zero => exact refuse_depth _
    | succ budget =>
      obtain ⟨e, limit, stopped⟩ := leads_deepen.stops room
      exact ⟨e, limit, bind_of_error stopped⟩

end Parser

namespace Grammar

open ElTemplate.Parser

section Statements

variable (features : FeatureSet) (size stop : Nat)

/-- The parsers read the node, whichever number of levels is left, and stop behind it. -/
def Reads (p : Nat → Parser Tape Node) (fits : Nat → Nat → Node → Prop)
    (continues : Token.Kind → Bool) (ts : List Token) (x : Node) (rest : List Token) : Prop :=
  ∀ ⦃levels nesting depth : Nat⦄ (names : Names), levels + nesting = maxNesting →
    depth ≤ maxDepth → ts.length ≤ size → continues (kindOf rest) = false →
    Leads (p levels (before ts (.ok stop) names nesting depth)) (fits nesting depth x)
      (.ok ((x.register features names).1,
        before rest (.ok stop) (x.register features names).2 nesting depth))

/-- A whole expression is read. -/
def ReadsExpression : List Token → Node → List Token → Prop :=
  Reads features size stop (fun levels => (level features size levels).expression)
    (fun nesting depth x => x.FitsWithin nesting depth) continuesExpression

/-- A unary operator with its operand, or a value, is read. -/
def ReadsUnary : List Token → Node → List Token → Prop :=
  Reads features size stop (fun levels => (level features size levels).operand)
    (fun nesting depth x => x.Fits nesting depth) continuesValue

/-- A primary is read. -/
def ReadsPrimary : List Token → Node → List Token → Prop :=
  Reads features size stop
    (fun levels => primary features size (level features size levels).expression)
    (fun nesting depth x => x.Fits nesting depth) (· == .leftParen)

/-- A chain of the first tiers is read. In the loop over the operators of its last tier, as many
levels are open then as the chain has operators of this tier. -/
def ReadsChain : Nat → List Token → Node → List Token → Prop
  | 0, ts, x, rest => ReadsUnary features size stop ts x rest
  | tier + 1, ts, x, rest =>
    ∀ ⦃levels nesting depth : Nat⦄ (names : Names), levels + nesting = maxNesting →
      depth ≤ maxDepth → ts.length ≤ size → continuesChain tier (kindOf rest) = false →
      Leads
        (binary (level features size levels).operand (tier + 1)
          (before ts (.ok stop) names nesting depth))
        (x.Fits nesting depth)
        (chainFrom (binary (level features size levels).operand tier)
          (BinaryOp.ofTier? (tier + 1)) (maxDepth - x.folds (tier + 1))
          (x.register features names).1 (x.folds (tier + 1))
          (before rest (.ok stop) (x.register features names).2 nesting
            (depth + x.folds (tier + 1))))

/-- A value is read, up to the loop over further access steps. -/
def ReadsValue (ts : List Token) (x : Node) (rest : List Token) : Prop :=
  ∀ ⦃levels nesting depth : Nat⦄ (names : Names), levels + nesting = maxNesting →
    depth ≤ maxDepth → ts.length ≤ size → (kindOf rest = .leftParen → x.isAccess) →
    Leads
      (value features size (level features size levels).expression
        (before ts (.ok stop) names nesting depth))
      (x.Fits nesting depth)
      (resume features size (level features size levels).expression x.isAccess
        (maxDepth - x.steps) (x.register features names).1 x.steps
        (before rest (.ok stop) (x.register features names).2 nesting (depth + x.steps)))

/-- Arguments in parentheses are read. -/
def ReadsArguments (ts : List Token) (args : List Node) (rest : List Token) : Prop :=
  ∀ ⦃levels nesting depth : Nat⦄ (names : Names), levels + nesting = maxNesting →
    depth ≤ maxDepth → ts.length ≤ size →
    Leads
      (arguments size (level features size levels).expression
        (before ts (.ok stop) names nesting depth))
      (Node.FitAll nesting depth args)
      (.ok ((Node.registerAll features names args).1,
        before rest (.ok stop) (Node.registerAll features names args).2 nesting depth))

/-- Further arguments are read, behind those that have been. -/
def ReadsFurther (ts : List Token) (args : List Node) (rest : List Token) : Prop :=
  ∀ ⦃levels nesting depth : Nat⦄ (budget : Nat) (done : List Node) (names : Names),
    levels + nesting = maxNesting → depth ≤ maxDepth → ts.length ≤ size → ts.length ≤ budget →
    continuesExpression (kindOf rest) = false → kindOf rest ≠ .comma →
    Leads
      (argumentsFrom (level features size levels).expression budget done
        (before ts (.ok stop) names nesting depth))
      (Node.FitAll nesting depth args)
      (.ok (done.reverse ++ (Node.registerAll features names args).1,
        before rest (.ok stop) (Node.registerAll features names args).2 nesting depth))

end Statements

variable {features : FeatureSet} {size stop tier : Nat} {ts ts₁ ts₂ rest : List Token}

/-- Where no operator of its last tier follows, a chain has been read. -/
theorem ReadsChain.closed {x : Node} (h : ReadsChain features size stop tier ts x rest) :
    Reads features size stop (fun levels => binary (level features size levels).operand tier)
      (fun nesting depth x => x.Fits nesting depth) (continuesChain tier) ts x rest := by
  intro levels nesting depth names hlevels hdepth hsize ends
  cases tier with
  | zero => exact h names hlevels hdepth hsize (continuesChain_zero ▸ ends)
  | succ tier =>
    have opened := h names hlevels hdepth hsize (continuesChain_of_succ ends)
    rw [chainFrom_of_none (ofTier?_of_ends ends)] at opened
    exact opened

/-- Where no access step follows, a value has been read. -/
theorem ReadsValue.closed {x : Node} (h : ReadsValue features size stop ts x rest) :
    Reads features size stop
      (fun levels => value features size (level features size levels).expression)
      (fun nesting depth x => x.Fits nesting depth) continuesValue ts x rest := by
  intro levels nesting depth names hlevels hdepth hsize ends
  have apart := (ne_of_continuesValue ends).2.2
  have opened := h names hlevels hdepth hsize fun paren => absurd paren apart
  rw [resume_of_ne apart, stepsFrom_of_ends ends] at opened
  exact opened

theorem ReadsExpression.condition {c : Node}
    (chain : ReadsChain features size stop BinaryOp.tiers ts c rest) :
    ReadsExpression features size stop ts c rest := by
  intro levels nesting depth names hlevels hdepth hsize ends
  dsimp only
  rw [level_expression]
  apply leads_deeper hlevels
  intro levels hlevels hdepth
  have chainEnds := continuesChain_of_expression ends
  apply (chain.closed names hlevels hdepth hsize chainEnds).bind_pure
  have apart : kindOf rest ≠ .question := by
    intro question
    rw [question] at ends
    cases ends
  rw [kind_before, if_neg apart]
  rfl

theorem ReadsExpression.ternary {question colon : Token} {c y n : Node}
    (condition : ReadsChain features size stop BinaryOp.tiers ts c (question :: ts₁))
    (hquestion : question.kind = .question)
    (yes : ReadsExpression features size stop ts₁ y (colon :: ts₂))
    (hcolon : colon.kind = .colon) (no : ReadsExpression features size stop ts₂ n rest)
    (hyes : ts₁.length ≤ ts.length) (hno : ts₂.length ≤ ts.length) :
    ReadsExpression features size stop ts (.ternary c y n) rest := by
  intro levels nesting depth names hlevels hdepth hsize ends
  dsimp only
  rw [level_expression]
  apply leads_deeper hlevels
  intro levels hlevels hdepth
  rw [Node.Fits]
  have chainEnds : continuesChain BinaryOp.tiers (kindOf (question :: ts₁)) = false := by
    rw [kindOf_cons, hquestion]
    rfl
  apply (condition.closed names hlevels hdepth hsize chainEnds).bind
  intro _
  rw [kind_before, kindOf_cons, if_pos hquestion]
  apply Leads.bind_ok advance_before
  have yesEnds : continuesExpression (kindOf (colon :: ts₂)) = false := by
    rw [kindOf_cons, hcolon]
    rfl
  apply (yes _ hlevels hdepth (Nat.le_trans hyes hsize) yesEnds).bind
  intro _
  apply Leads.bind_ok (expect_before hcolon)
  exact (no _ hlevels hdepth (Nat.le_trans hno hsize) ends).bind_pure rfl

theorem ReadsChain.lift {x : Node} (lower : ReadsChain features size stop tier ts x rest)
    (hfolds : x.folds (tier + 1) = 0) : ReadsChain features size stop (tier + 1) ts x rest := by
  intro levels nesting depth names hlevels hdepth hsize ends
  rw [hfolds]
  exact (lower.closed names hlevels hdepth hsize ends).bind_pure rfl

theorem ReadsChain.binary {operator : Token} {op : BinaryOp} {l r : Node}
    (left : ReadsChain features size stop (tier + 1) ts l (operator :: ts₁))
    (hop : BinaryOp.ofKind? operator.kind = some op) (htier : op.tier = tier + 1)
    (right : ReadsChain features size stop tier ts₁ r rest) (hright : ts₁.length ≤ ts.length) :
    ReadsChain features size stop (tier + 1) ts (.binary op l r) rest := by
  intro levels nesting depth names hlevels hdepth hsize ends
  have leftEnds : continuesChain tier (kindOf (operator :: ts₁)) = false :=
    continuesChain_of_tier hop htier
  have folds : (Node.binary op l r).folds (tier + 1) = l.folds (tier + 1) + 1 := by
    rw [Node.folds, if_pos htier]
  rw [Node.Fits, htier, folds]
  apply (left names hlevels hdepth hsize leftEnds).trans
  intro _
  refine leads_chainFrom (ofTier?_of_tier hop htier) fun room => ?_
  exact right.closed _ hlevels room (Nat.le_trans hright hsize) ends

theorem ReadsUnary.unary {operator : Token} {op : UnaryOp} {x : Node}
    (hop : UnaryOp.ofKind? operator.kind = some op)
    (operand : ReadsUnary features size stop ts x rest) :
    ReadsUnary features size stop (operator :: ts) (.unary op x) rest := by
  intro levels nesting depth names hlevels hdepth hsize ends
  dsimp only
  rw [level_operand, Parser.unary, kind_before, kindOf_cons, hop, Node.Fits]
  apply Leads.bind_ok advance_before
  have shorter : ts.length ≤ size := Nat.le_of_succ_le hsize
  refine Leads.bind_pure (leads_deeper hlevels fun levels hlevels hdepth => ?_) rfl
  exact operand names hlevels hdepth shorter ends

theorem ReadsUnary.value {x : Node} (value : ReadsValue features size stop ts x rest)
    (hopens : UnaryOp.ofKind? (kindOf ts) = none) : ReadsUnary features size stop ts x rest := by
  intro levels nesting depth names hlevels hdepth hsize ends
  dsimp only
  rw [level_operand, Parser.unary, kind_before, hopens]
  exact value.closed names hlevels hdepth hsize ends

theorem ReadsValue.primary {x : Node} (primary : ReadsPrimary features size stop ts x rest)
    (hsteps : x.steps = 0) (haccess : x.isAccess = false) :
    ReadsValue features size stop ts x rest := by
  intro levels nesting depth names hlevels hdepth hsize ends
  rw [hsteps, haccess]
  have apart : (kindOf rest == .leftParen) = false := by
    rw [beq_eq_false_iff_ne]
    intro paren
    rw [ends paren] at haccess
    cases haccess
  exact (primary names hlevels hdepth hsize apart).bind_pure rfl

theorem ReadsValue.property {dot name : Token} {base : Node}
    (value : ReadsValue features size stop ts base (dot :: name :: rest))
    (hdot : dot.kind = .dot) (hname : name.kind = .identifier) :
    ReadsValue features size stop ts (.property base name.image (!base.isLiteral)) rest := by
  intro levels nesting depth names hlevels hdepth hsize _
  have apart : kindOf (dot :: name :: rest) ≠ .leftParen := by
    rw [kindOf_cons, hdot]
    exact nofun
  have first := value names hlevels hdepth hsize fun paren => absurd paren apart
  rw [resume_of_ne apart] at first
  have key : accessKey? (level features size levels).expression
      (before (dot :: name :: rest) (.ok stop) (base.register features names).2 nesting
        (depth + base.steps)) =
      .ok (some (.property name.image), before rest (.ok stop) (base.register features names).2
        nesting (depth + base.steps)) := by
    rw [accessKey?, kind_before, kindOf_cons, hdot]
    exact (bind_of_ok advance_before).trans (bind_of_ok (expect_before hname))
  have reached :
      ((Node.property base name.image (!base.isLiteral)).register features names).1 =
        (AccessKey.property name.image).access (base.register features names).1 := by
    rw [AccessKey.access, Node.isLiteral_register]
    rfl
  rw [Node.Fits, reached]
  refine first.trans fun _ => (Leads.congr ?_ (true_and _).to_iff.symm)
  exact leads_stepsFrom (Leads.of_eq key)

theorem ReadsValue.item {opening closing : Token} {base key : Node}
    (value : ReadsValue features size stop ts base (opening :: ts₁))
    (hopening : opening.kind = .leftBracket)
    (index : ReadsExpression features size stop ts₁ key (closing :: rest))
    (hclosing : closing.kind = .rightBracket) (hindex : ts₁.length ≤ ts.length) :
    ReadsValue features size stop ts (.item base key (!base.isLiteral)) rest := by
  intro levels nesting depth names hlevels hdepth hsize _
  have apart : kindOf (opening :: ts₁) ≠ .leftParen := by
    rw [kindOf_cons, hopening]
    exact nofun
  have first := value names hlevels hdepth hsize fun paren => absurd paren apart
  rw [resume_of_ne apart] at first
  have indexEnds : continuesExpression (kindOf (closing :: rest)) = false := by
    rw [kindOf_cons, hclosing]
    rfl
  have reached :
      ((Node.item base key (!base.isLiteral)).register features names).1 =
        (AccessKey.item (key.register features (base.register features names).2).1).access
          (base.register features names).1 := by
    rw [AccessKey.access, Node.isLiteral_register]
    rfl
  rw [Node.Fits, reached]
  -- The index may go deeper than the access step that it belongs to, so it is checked first.
  refine first.trans fun within => leads_stepsFrom ?_
  rw [accessKey?, kind_before, kindOf_cons, hopening]
  apply Leads.bind_ok advance_before
  have inner := index (base.register features names).2 hlevels (within.steps_le hdepth)
    (Nat.le_trans hindex hsize) indexEnds
  exact inner.bind_pure (bind_of_ok (expect_before hclosing))

theorem ReadsValue.method {target : Node} {args : List Node}
    (value : ReadsValue features size stop ts target ts₁) (access : target.isAccess)
    (enabled : features.methodInvocations)
    (arguments : ReadsArguments features size stop ts₁ args rest)
    (hopens : kindOf ts₁ = .leftParen) (hargs : ts₁.length ≤ ts.length) :
    ReadsValue features size stop ts (.method target args) rest := by
  intro levels nesting depth names hlevels hdepth hsize hrest
  have plain : kindOf rest ≠ .leftParen := fun paren => nomatch hrest paren
  have first := value names hlevels hdepth hsize fun _ => access
  rw [Node.Fits]
  apply first.trans
  intro within
  have inner := arguments (target.register features names).2 hlevels (within.steps_le hdepth)
    (Nat.le_trans hargs hsize)
  have invoked : Leads
      (invocation features size (level features size levels).expression
        (target.register features names).1
        (before ts₁ (.ok stop) (target.register features names).2 nesting (depth + target.steps)))
      (Node.FitAll nesting (depth + target.steps) args)
      (.ok (((Node.method target args).register features names).1,
        before rest (.ok stop) ((Node.method target args).register features names).2 nesting
          (depth + target.steps))) := by
    rw [invocation, kind_before, hopens, if_pos ⟨enabled, rfl⟩]
    exact inner.bind_pure rfl
  rw [access]
  exact invoked.bind_pure rfl

theorem ReadsPrimary.identifier {name : Token} (hname : name.kind = .identifier)
    (alone : ¬ QualifiesCall rest) :
    ReadsPrimary features size stop (name :: rest) (.identifier name.image 0) rest := by
  intro levels nesting depth names hlevels hdepth hsize ends
  have apart : kindOf rest ≠ .leftParen := beq_eq_false_iff_ne.mp ends
  dsimp only
  rw [Node.Fits, Parser.primary, kind_before, kindOf_cons, hname]
  refine Leads.of_eq ((bind_of_ok advance_before).trans ?_)
  rw [bind_of_ok atQualifiedCall_before, decide_eq_false alone, if_neg Bool.false_ne_true,
    kind_before, if_neg apart]
  exact identifier_before features name.image 0

theorem ReadsPrimary.call {name : Token} {args : List Node} (hname : name.kind = .identifier)
    (arguments : ReadsArguments features size stop ts args rest)
    (hopens : kindOf ts = .leftParen) :
    ReadsPrimary features size stop (name :: ts) (.call none name.image 0 args) rest := by
  intro levels nesting depth names hlevels hdepth hsize _
  have unqualified : ¬ QualifiesCall ts := by
    rintro ⟨colon, -, -⟩
    rw [hopens] at colon
    cases colon
  dsimp only
  rw [Node.Fits, Parser.primary, kind_before, kindOf_cons, hname]
  apply Leads.bind_ok advance_before
  rw [bind_of_ok atQualifiedCall_before, decide_eq_false unqualified, if_neg Bool.false_ne_true,
    kind_before, if_pos hopens]
  have inner := arguments names hlevels hdepth (Nat.le_of_succ_le hsize)
  exact inner.bind_pure (call_before features none name.image 0 args)

theorem ReadsPrimary.qualifiedCall {qualifier colon name : Token} {args : List Node}
    (hqualifier : qualifier.kind = .identifier) (hcolon : colon.kind = .colon)
    (hname : name.kind = .identifier)
    (arguments : ReadsArguments features size stop ts args rest)
    (hopens : kindOf ts = .leftParen) :
    ReadsPrimary features size stop (qualifier :: colon :: name :: ts)
      (.call (some qualifier.image) name.image 0 args) rest := by
  intro levels nesting depth names hlevels hdepth hsize _
  have qualified : QualifiesCall (colon :: name :: ts) := ⟨hcolon, hname, hopens⟩
  dsimp only
  rw [Node.Fits, Parser.primary, kind_before, kindOf_cons, hqualifier]
  apply Leads.bind_ok advance_before
  rw [bind_of_ok atQualifiedCall_before, decide_eq_true qualified, if_pos rfl]
  refine Leads.bind_ok advance_before (Leads.bind_ok advance_before ?_)
  have shorter : ts.length ≤ size := by
    simp only [List.length_cons] at hsize
    omega
  have inner := arguments names hlevels hdepth shorter
  exact inner.bind_pure (call_before features (some qualifier.image) name.image 0 args)

theorem ReadsPrimary.bracket {opening closing : Token} {inner : Node}
    (hopening : opening.kind = .leftParen)
    (expression : ReadsExpression features size stop ts inner (closing :: rest))
    (hclosing : closing.kind = .rightParen) :
    ReadsPrimary features size stop (opening :: ts) (.bracket inner) rest := by
  intro levels nesting depth names hlevels hdepth hsize _
  have innerEnds : continuesExpression (kindOf (closing :: rest)) = false := by
    rw [kindOf_cons, hclosing]
    rfl
  dsimp only
  rw [Node.Fits, Parser.primary, kind_before, kindOf_cons, hopening]
  apply Leads.bind_ok advance_before
  have read := expression names hlevels hdepth (Nat.le_of_succ_le hsize) innerEnds
  exact read.bind_pure (bind_of_ok (expect_before hclosing))

theorem ReadsPrimary.literal {t : Token} {value : Literal}
    (hvalue : Literal.ofToken? t = some (.ok value)) :
    ReadsPrimary features size stop (t :: rest) (.literal value) rest := by
  intro levels nesting depth names hlevels hdepth hsize _
  obtain ⟨-, -, paren, name, -⟩ := kind_of_literal hvalue
  dsimp only
  rw [Node.Fits]
  apply Leads.of_eq
  have apart : kindOf (t :: rest) ≠ .identifier ∧ kindOf (t :: rest) ≠ .leftParen := ⟨name, paren⟩
  have current : TokenSource.current
      (before (t :: rest) (.ok stop) names nesting depth).source = t := rfl
  rw [primary_of_ne apart.1 apart.2, literal_apply, current, hvalue]
  exact bind_of_ok advance_before

theorem ReadsArguments.nil {opening closing : Token} (hopening : opening.kind = .leftParen)
    (hclosing : closing.kind = .rightParen) :
    ReadsArguments features size stop (opening :: closing :: rest) [] rest := by
  intro levels nesting depth names hlevels hdepth hsize
  rw [Node.FitAll]
  apply Leads.of_eq
  rw [arguments, bind_of_ok (expect_before hopening), kind_before, kindOf_cons, if_pos hclosing]
  exact (bind_of_ok (pure_apply _ _)).trans (bind_of_ok (expect_before hclosing))

theorem ReadsArguments.cons {opening closing : Token} {arg : Node} {args : List Node}
    (hopening : opening.kind = .leftParen)
    (first : ReadsExpression features size stop ts arg ts₁)
    (more : ReadsFurther features size stop ts₁ args (closing :: rest))
    (hclosing : closing.kind = .rightParen) (hopens : kindOf ts ≠ .rightParen)
    (hkind : kindOf ts₁ = .comma ∨ ts₁ = closing :: rest) (hmore : ts₁.length ≤ ts.length) :
    ReadsArguments features size stop (opening :: ts) (arg :: args) rest := by
  intro levels nesting depth names hlevels hdepth hsize
  have shorter : ts.length ≤ size := Nat.le_of_succ_le hsize
  have firstEnds : continuesExpression (kindOf ts₁) = false := by
    rcases hkind with comma | rfl
    · rw [comma]
      rfl
    · rw [kindOf_cons, hclosing]
      rfl
  have closingEnds : continuesExpression closing.kind = false ∧ closing.kind ≠ .comma := by
    rw [hclosing]
    exact ⟨rfl, nofun⟩
  rw [Node.FitAll, arguments, bind_of_ok (expect_before hopening), kind_before, if_neg hopens]
  have head := first names hlevels hdepth shorter firstEnds
  have tail := more size [(arg.register features names).1] (arg.register features names).2 hlevels
    hdepth (Nat.le_trans hmore shorter) (Nat.le_trans hmore shorter) closingEnds.1 closingEnds.2
  exact head.bind fun _ => tail.bind_pure (bind_of_ok (expect_before hclosing))

theorem ReadsFurther.nil : ReadsFurther features size stop rest [] rest := by
  intro levels nesting depth budget done names hlevels hdepth hsize hbudget ends apart
  rw [Node.FitAll]
  apply Leads.of_eq
  cases budget with
  | zero =>
    rw [argumentsFrom, pure_apply, Node.registerAll, List.append_nil]
  | succ budget =>
    rw [argumentsFrom, kind_before, if_neg apart, pure_apply, Node.registerAll, List.append_nil]

theorem ReadsFurther.cons {comma : Token} {arg : Node} {args : List Node}
    (hcomma : comma.kind = .comma) (next : ReadsExpression features size stop ts arg ts₁)
    (more : ReadsFurther features size stop ts₁ args rest)
    (hkind : kindOf ts₁ = .comma ∨ ts₁ = rest) (hmore : ts₁.length ≤ ts.length) :
    ReadsFurther features size stop (comma :: ts) (arg :: args) rest := by
  intro levels nesting depth budget done names hlevels hdepth hsize hbudget ends apart
  rw [List.length_cons] at hsize hbudget
  have nextEnds : continuesExpression (kindOf ts₁) = false := by
    rcases hkind with comma | rfl
    · rw [comma]
      rfl
    · exact ends
  cases budget with
  | zero => omega
  | succ budget =>
    rw [argumentsFrom, kind_before, kindOf_cons, if_pos hcomma, Node.FitAll]
    apply Leads.bind_ok advance_before
    apply (next names hlevels hdepth (by omega) nextEnds).bind
    intro _
    have tail := more budget ((arg.register features names).1 :: done)
      (arg.register features names).2 hlevels hdepth (by omega) (by omega) ends apart
    rw [List.reverse_cons, List.append_assoc] at tail
    exact tail

/-- What is proved of a derivation: its phrase is read. -/
def ReadsPhrase (features : FeatureSet) (size stop : Nat) :
    Phrase → List Token → List Node → List Token → Prop
  | .expression, ts, [x], rest => ReadsExpression features size stop ts x rest
  | .chain tier, ts, [x], rest => ReadsChain features size stop tier ts x rest
  | .unary, ts, [x], rest => ReadsUnary features size stop ts x rest
  | .value, ts, [x], rest => ReadsValue features size stop ts x rest
  | .primary, ts, [x], rest => ReadsPrimary features size stop ts x rest
  | .arguments, ts, args, rest => ReadsArguments features size stop ts args rest
  | .further, ts, args, rest => ReadsFurther features size stop ts args rest
  | _, _, _, _ => True

theorem Derives.length_le {phrase : Phrase} {nodes : List Node}
    (h : Derives features phrase ts nodes rest) : rest.length ≤ ts.length :=
  h.suffix.length_le

theorem Derives.reads {phrase : Phrase} {nodes : List Node}
    (h : Derives features phrase ts nodes rest) (size stop : Nat) :
    ReadsPhrase features size stop phrase ts nodes rest := by
  induction h with
  | condition _ chain => exact ReadsExpression.condition chain
  | ternary condition hquestion yes hcolon no first second third =>
    have hyes := Nat.le_of_succ_le condition.length_le
    have hno := Nat.le_of_succ_le yes.length_le
    exact ReadsExpression.ternary first hquestion second hcolon third hyes
      (Nat.le_trans hno hyes)
  | operand _ unary => exact unary
  | lift lower ih => exact ReadsChain.lift ih (lower.folds_chain (Nat.lt_succ_self _))
  | binary left hop htier _ first second =>
    exact ReadsChain.binary first hop htier second (Nat.le_of_succ_le left.length_le)
  | unary hop _ ih => exact ReadsUnary.unary hop ih
  | value value ih => exact ReadsUnary.value ih value.opensWith.1
  | primary primary ih => exact ReadsValue.primary ih primary.steps_primary primary.isAccess_primary
  | property _ hdot hname ih => exact ReadsValue.property ih hdot hname
  | item value hopening _ hclosing first second =>
    exact ReadsValue.item first hopening second hclosing (Nat.le_of_succ_le value.length_le)
  | method value access enabled arguments first second =>
    exact ReadsValue.method first access enabled second arguments.opensWith value.length_le
  | identifier hname alone => exact ReadsPrimary.identifier hname alone
  | call hname arguments ih => exact ReadsPrimary.call hname ih arguments.opensWith
  | qualifiedCall hqualifier hcolon hname arguments ih =>
    exact ReadsPrimary.qualifiedCall hqualifier hcolon hname ih arguments.opensWith
  | bracket hopening _ hclosing ih => exact ReadsPrimary.bracket hopening ih hclosing
  | literal hvalue => exact ReadsPrimary.literal hvalue
  | noArguments hopening hclosing => exact ReadsArguments.nil hopening hclosing
  | arguments hopening expression more hclosing first second =>
    exact ReadsArguments.cons hopening first second hclosing expression.opensWith
      more.further_kind expression.length_le
  | noFurther => exact ReadsFurther.nil
  | further hcomma expression more first second =>
    exact ReadsFurther.cons hcomma first second more.further_kind expression.length_le

end Grammar

end ElTemplate
