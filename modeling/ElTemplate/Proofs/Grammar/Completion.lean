import ElTemplate.Proofs.Grammar.Follow

/-!
# Completing phrases

Tokens complete to a phrase if some phrase begins with them, whatever comes behind it. What has been
read of a phrase, and one more token that its parser would have accepted, completes to the phrase:
null literals stand for what is missing, and closing tokens for what is open. A completion may not
turn an identifier before it into a qualifier that what was really there did not.
-/

namespace ElTemplate.Grammar

variable {features : FeatureSet} {phrase : Phrase} {start us us₁ vs ws rest : List Token}
  {x y c : Node} {args : List Node} {t : Token} {tier : Nat}

/-- The literal that stands for a missing operand. -/
def nullNode : Node :=
  .literal .null

theorem derives_null (rest : List Token) :
    Derives features .primary (⟨.nullWord, "null", 0⟩ :: rest) [nullNode] rest :=
  .literal rfl

theorem chain_null (rest : List Token) (tier : Nat) :
    Derives features (.chain tier) (⟨.nullWord, "null", 0⟩ :: rest) [nullNode] rest := by
  induction tier with
  | zero => exact .operand (.value (.primary (derives_null rest)))
  | succ tier ih => exact .lift ih

theorem expression_null (rest : List Token) :
    Derives features .expression (⟨.nullWord, "null", 0⟩ :: rest) [nullNode] rest :=
  .condition (chain_null rest _)

/-- The tokens have been read as the phrase, with the others behind them. -/
structure Consumed (features : FeatureSet) (phrase : Phrase) (us : List Token) (x : Node)
    (vs : List Token) : Prop where
  nonempty : us ≠ []
  derives : ∀ ws, Admits ws vs → Derives features phrase (us ++ ws) [x] ws

/-- Some phrase begins with the tokens. It calls what its first token names only if the tokens that
it stands for do. -/
def Completes (features : FeatureSet) (phrase : Phrase) (start us : List Token) : Prop :=
  ∀ rest, Neutral rest → ∃ ts x, us <+: ts ∧ Derives features phrase ts [x] rest ∧
    (Calls ts → Calls start)

/-- Some arguments in parentheses begin with the tokens. -/
def CompletesArguments (features : FeatureSet) (us : List Token) : Prop :=
  ∀ rest, ∃ ts args, us <+: ts ∧ Derives features .arguments ts args rest

/-- Some further arguments before a parenthesis begin with the tokens. -/
def CompletesFurther (features : FeatureSet) (us : List Token) : Prop :=
  ∀ rest, kindOf rest = .rightParen →
    ∃ ts args, us <+: ts ∧ kindOf ts = .comma ∧ Derives features .further ts args rest

theorem Derives.consumed (h : Derives features phrase vs [x] rest) (proper : phrase ≠ .further) :
    ∃ us, vs = us ++ rest ∧ Consumed features phrase us x rest := by
  obtain ⟨us, split, some, further⟩ := h.retarget
  exact ⟨us, split, some proper, further⟩

theorem Derives.consumes (h : Derives features phrase (us ++ rest) [x] rest)
    (proper : phrase ≠ .further) : Consumed features phrase us x rest := by
  obtain ⟨us', split, consumed⟩ := h.consumed proper
  rwa [List.append_cancel_right split]

theorem Consumed.whole (h : Consumed features phrase us x vs) :
    Derives features phrase (us ++ vs) [x] vs :=
  h.derives vs (.refl vs)

section Boundaries

/-- The first two tokens decide whether there is a call. -/
theorem calls_of_append (some : us ≠ []) (same : kindOf vs = kindOf ws) (h : Calls (us ++ vs)) :
    Calls (us ++ ws) := by
  match us, some with
  | [t], _ => exact ⟨h.1, same ▸ h.2⟩
  | t :: u :: us, _ => exact h

/-- A token that is no name begins no call. -/
theorem not_calls (name : t.kind ≠ .identifier) : Calls (t :: us) → Calls start :=
  fun calls => absurd calls.1 name

theorem prefix_append (h : vs <+: ws) (us : List Token) : us ++ vs <+: us ++ ws :=
  (List.prefix_append_right_inj us).mpr h

/-- Behind a token that is neither a colon nor an identifier nor a parenthesis anything may come. -/
theorem admits_of_kind (colon : kindOf us ≠ .colon) (name : kindOf us ≠ .identifier)
    (paren : kindOf us ≠ .leftParen) : Admits us vs :=
  (neutral_of_kind colon name paren).admits vs

/-- Behind a colon only a call has to be watched. -/
theorem admits_colon {colon colon' : Token} (hcolon : colon.kind = .colon)
    (hcolon' : colon'.kind = .colon) (h : Calls us → Calls vs) :
    Admits (colon :: us) (colon' :: vs) where
  qualifies := fun ⟨_, calls⟩ => ⟨hcolon', h calls⟩
  calls := not_calls (by rw [hcolon]; exact nofun)
  paren := fun paren => by
    rw [kindOf_cons, hcolon] at paren
    cases paren

/-- A parenthesis takes the place of a parenthesis. -/
theorem admits_paren (h : kindOf us = .leftParen) (same : kindOf vs = .leftParen) :
    Admits us vs where
  qualifies := fun qualifies => by
    rw [QualifiesCall, h] at qualifies
    cases qualifies.1
  calls := fun calls => by
    rw [Calls, h] at calls
    cases calls.1
  paren := fun _ => same

/-- A colon and a literal qualify nothing. -/
theorem neutral_colon {colon literal : Token} (hcolon : colon.kind = .colon)
    (hliteral : literal.kind = .nullWord) : Neutral (colon :: literal :: us) where
  qualifies := fun qualifies => by
    have name : literal.kind = .identifier := qualifies.2.1
    rw [hliteral] at name
    cases name
  calls := fun calls => by
    rw [Calls, kindOf_cons, hcolon] at calls
    cases calls.1
  paren := by
    rw [kindOf_cons, hcolon]
    exact nofun

end Boundaries

namespace Completes

/-- A phrase that is missing altogether is a null literal. -/
theorem nil (start : List Token) (null : ∀ rest,
    Derives features phrase (⟨.nullWord, "null", 0⟩ :: rest) [nullNode] rest) :
    Completes features phrase start [] :=
  fun rest _ => ⟨_, nullNode, List.nil_prefix, null rest, not_calls nofun⟩

theorem expression (start : List Token) : Completes features .expression start [] :=
  nil start expression_null

/-- Whatever completes has completed from the beginning. -/
theorem begins (h : Completes features phrase start ws) (front : us <+: ws) :
    Completes features phrase start us := by
  intro rest neutral
  obtain ⟨ts, x, begins, derived, calls⟩ := h rest neutral
  exact ⟨ts, x, front.trans begins, derived, calls⟩

/-- A phrase that is another one by itself. -/
theorem wrap {other : Phrase} (h : Completes features phrase start us)
    (rule : ∀ {ts rest x}, Derives features phrase ts [x] rest →
      Derives features other ts [x] rest) : Completes features other start us := by
  intro rest neutral
  obtain ⟨ts, x, begins, derived, calls⟩ := h rest neutral
  exact ⟨ts, x, begins, rule derived, calls⟩

section Chains

variable {operator : Token}

theorem unary {op : UnaryOp} (hop : UnaryOp.ofKind? operator.kind = some op)
    (h : Completes features .unary vs ws) :
    Completes features .unary start (operator :: ws) := by
  intro rest neutral
  obtain ⟨ts, x, begins, derived, -⟩ := h rest neutral
  refine ⟨operator :: ts, .unary op x, prefix_append begins [operator], .unary hop derived, ?_⟩
  apply not_calls
  intro name
  rw [name] at hop
  cases hop

/-- An operator behind a left operand, and the beginning of a right one. -/
theorem right {op : BinaryOp} (left : Consumed features (.chain (tier + 1)) us x (operator :: vs))
    (hop : BinaryOp.ofKind? operator.kind = some op) (htier : op.tier = tier + 1)
    (h : Completes features (.chain tier) vs ws) :
    Completes features (.chain (tier + 1)) (us ++ operator :: vs) (us ++ operator :: ws) := by
  intro rest neutral
  obtain ⟨ts, y, begins, derived, -⟩ := h rest neutral
  have admits : Admits (operator :: ts) (operator :: vs) := by
    refine admits_of_kind ?_ ?_ ?_ <;> intro kind <;> rw [kindOf_cons] at kind <;>
      rw [kind] at hop <;> cases hop
  exact ⟨us ++ operator :: ts, .binary op x y, prefix_append (prefix_append begins [operator]) us,
    .binary (left.derives _ admits) hop htier derived, calls_of_append left.nonempty rfl⟩

end Chains

section Ternary

variable {question colon : Token}

/-- The question mark behind a condition, and the beginning of the first branch. -/
theorem yes (condition : Consumed features (.chain BinaryOp.tiers) us c (question :: vs))
    (hquestion : question.kind = .question) (h : Completes features .expression vs ws) :
    Completes features .expression (us ++ question :: vs) (us ++ question :: ws) := by
  intro rest neutral
  obtain ⟨ts, y, begins, derived, -⟩ :=
    h (⟨.colon, ":", 0⟩ :: ⟨.nullWord, "null", 0⟩ :: rest) (neutral_colon rfl rfl)
  have admits : Admits (question :: ts) (question :: vs) :=
    admits_of_kind (by simp [hquestion]) (by simp [hquestion]) (by simp [hquestion])
  exact ⟨us ++ question :: ts, .ternary c y nullNode,
    prefix_append (prefix_append begins [question]) us,
    .ternary (condition.derives _ admits) hquestion derived rfl (expression_null rest),
    calls_of_append condition.nonempty rfl⟩

/-- The colon behind the first branch. -/
theorem yesClosed
    (condition : Consumed features (.chain BinaryOp.tiers) us c (question :: (us₁ ++ vs)))
    (hquestion : question.kind = .question) (branch : Consumed features .expression us₁ y vs)
    (hcolon : colon.kind = .colon) :
    Completes features .expression (us ++ question :: (us₁ ++ vs))
      (us ++ question :: (us₁ ++ [colon])) := by
  intro rest _
  have admits : Admits (question :: (us₁ ++ colon :: ⟨.nullWord, "null", 0⟩ :: rest))
      (question :: (us₁ ++ vs)) :=
    admits_of_kind (by simp [hquestion]) (by simp [hquestion]) (by simp [hquestion])
  have begins : [colon] <+: colon :: ⟨.nullWord, "null", 0⟩ :: rest := List.prefix_append _ _
  exact ⟨us ++ question :: (us₁ ++ colon :: ⟨.nullWord, "null", 0⟩ :: rest), .ternary c y nullNode,
    prefix_append (prefix_append (prefix_append begins us₁) [question]) us,
    .ternary (condition.derives _ admits) hquestion
      (branch.derives _ ((neutral_colon hcolon rfl).admits vs)) hcolon
      (expression_null rest),
    calls_of_append condition.nonempty rfl⟩

/-- The colon behind the first branch, and the beginning of the second one. -/
theorem no (condition : Consumed features (.chain BinaryOp.tiers) us c
      (question :: (us₁ ++ colon :: vs)))
    (hquestion : question.kind = .question)
    (branch : Consumed features .expression us₁ y (colon :: vs)) (hcolon : colon.kind = .colon)
    (h : Completes features .expression vs ws) :
    Completes features .expression (us ++ question :: (us₁ ++ colon :: vs))
      (us ++ question :: (us₁ ++ colon :: ws)) := by
  intro rest neutral
  obtain ⟨ts, n, begins, derived, calls⟩ := h rest neutral
  have admits : Admits (question :: (us₁ ++ colon :: ts)) (question :: (us₁ ++ colon :: vs)) :=
    admits_of_kind (by simp [hquestion]) (by simp [hquestion]) (by simp [hquestion])
  exact ⟨us ++ question :: (us₁ ++ colon :: ts), .ternary c y n,
    prefix_append (prefix_append (prefix_append (prefix_append begins [colon]) us₁) [question]) us,
    .ternary (condition.derives _ admits) hquestion
      (branch.derives _ (admits_colon hcolon hcolon calls)) hcolon derived,
    calls_of_append condition.nonempty rfl⟩

end Ternary

section Primaries

variable {opening closing : Token}

/-- A parenthesis, and the beginning of an expression. -/
theorem bracket (hopening : opening.kind = .leftParen)
    (h : Completes features .expression vs ws) :
    Completes features .unary start (opening :: ws) := by
  intro rest _
  obtain ⟨ts, x, begins, derived, -⟩ := h (⟨.rightParen, ")", 0⟩ :: rest)
    (neutral_of_kind nofun nofun nofun)
  exact ⟨opening :: ts, .bracket x, prefix_append begins [opening],
    .value (.primary (.bracket hopening derived rfl)), not_calls (by simp [hopening])⟩

/-- A whole expression in parentheses. -/
theorem bracketed (hopening : opening.kind = .leftParen) (hclosing : closing.kind = .rightParen)
    (inner : Consumed features .expression us x vs) :
    Completes features .unary start (opening :: (us ++ [closing])) := by
  intro rest _
  have admits : Admits (closing :: rest) vs :=
    admits_of_kind (by simp [hclosing]) (by simp [hclosing]) (by simp [hclosing])
  have begins : [closing] <+: closing :: rest := List.prefix_append _ _
  exact ⟨opening :: (us ++ closing :: rest), .bracket x,
    prefix_append (prefix_append begins us) [opening],
    .value (.primary (.bracket hopening (inner.derives _ admits) hclosing)),
    not_calls (by simp [hopening])⟩

/-- An identifier by itself. -/
theorem identifier {name : Token} (hname : name.kind = .identifier) :
    Completes features .unary start [name] := by
  intro rest neutral
  exact ⟨name :: rest, _, List.prefix_append [name] rest,
    .value (.primary (.identifier hname neutral.qualifies)),
    fun calls => absurd calls.2 neutral.paren⟩

theorem literal {value : Literal} (hvalue : Literal.ofToken? t = some (.ok value)) :
    Completes features .unary start [t] := by
  intro rest _
  exact ⟨t :: rest, _, List.prefix_append [t] rest, .value (.primary (.literal hvalue)),
    not_calls (kind_of_literal hvalue).2.2.2.1⟩

/-- An identifier, and the beginning of its arguments. -/
theorem call {name : Token} (hname : name.kind = .identifier) (paren : kindOf vs = .leftParen)
    (h : CompletesArguments features ws) :
    Completes features .unary (name :: vs) (name :: ws) := by
  intro rest _
  obtain ⟨ts, args, begins, derived⟩ := h rest
  exact ⟨name :: ts, _, prefix_append begins [name], .value (.primary (.call hname derived)),
    fun _ => ⟨hname, paren⟩⟩

/-- A qualifier, a colon, an identifier, and the beginning of its arguments. -/
theorem qualifiedCall {qualifier colon name : Token} (hqualifier : qualifier.kind = .identifier)
    (hcolon : colon.kind = .colon) (hname : name.kind = .identifier)
    (h : CompletesArguments features ws) :
    Completes features .unary start (qualifier :: colon :: name :: ws) := by
  intro rest _
  obtain ⟨ts, args, begins, derived⟩ := h rest
  refine ⟨qualifier :: colon :: name :: ts, _, prefix_append begins [qualifier, colon, name],
    .value (.primary (.qualifiedCall hqualifier hcolon hname derived)), fun calls => ?_⟩
  have paren : colon.kind = .leftParen := calls.2
  rw [hcolon] at paren
  cases paren

/-- A qualifier and a colon. -/
theorem qualifier {qualifier colon : Token} (hqualifier : qualifier.kind = .identifier)
    (hcolon : colon.kind = .colon) :
    Completes features .unary start [qualifier, colon] := by
  intro rest _
  refine ⟨qualifier :: colon :: ⟨.identifier, "a", 0⟩ :: ⟨.leftParen, "(", 0⟩ ::
    ⟨.rightParen, ")", 0⟩ :: rest, _, List.prefix_append [qualifier, colon] _,
    .value (.primary (.qualifiedCall hqualifier hcolon rfl (.noArguments rfl rfl))),
    fun calls => ?_⟩
  have paren : colon.kind = .leftParen := calls.2
  rw [hcolon] at paren
  cases paren

end Primaries

section Steps

variable {base target : Node} {opening closing dot name : Token}

/-- A point behind a value, and a name. -/
theorem property (value : Consumed features .value us base (dot :: vs)) (hdot : dot.kind = .dot)
    (hname : name.kind = .identifier) :
    Completes features .unary (us ++ dot :: vs) (us ++ [dot, name]) := by
  intro rest _
  have admits : Admits (dot :: name :: rest) (dot :: vs) :=
    admits_of_kind (by simp [hdot]) (by simp [hdot]) (by simp [hdot])
  have begins : [dot, name] <+: dot :: name :: rest := List.prefix_append _ _
  exact ⟨us ++ dot :: name :: rest, _, prefix_append begins us,
    .value (.property (value.derives _ admits) hdot hname), calls_of_append value.nonempty rfl⟩

/-- A bracket behind a value, and the beginning of a key. -/
theorem item (value : Consumed features .value us base (opening :: vs))
    (hopening : opening.kind = .leftBracket) (h : Completes features .expression vs ws) :
    Completes features .unary (us ++ opening :: vs) (us ++ opening :: ws) := by
  intro rest _
  obtain ⟨ts, key, begins, derived, -⟩ := h (⟨.rightBracket, "]", 0⟩ :: rest)
    (neutral_of_kind nofun nofun nofun)
  have admits : Admits (opening :: ts) (opening :: vs) :=
    admits_of_kind (by simp [hopening]) (by simp [hopening]) (by simp [hopening])
  exact ⟨us ++ opening :: ts, _, prefix_append (prefix_append begins [opening]) us,
    .value (.item (value.derives _ admits) hopening derived rfl),
    calls_of_append value.nonempty rfl⟩

/-- A whole key in brackets behind a value. -/
theorem itemClosed (value : Consumed features .value us base (opening :: (us₁ ++ vs)))
    (hopening : opening.kind = .leftBracket) (key : Consumed features .expression us₁ x vs)
    (hclosing : closing.kind = .rightBracket) :
    Completes features .unary (us ++ opening :: (us₁ ++ vs))
      (us ++ opening :: (us₁ ++ [closing])) := by
  intro rest _
  have admits : Admits (opening :: (us₁ ++ closing :: rest)) (opening :: (us₁ ++ vs)) :=
    admits_of_kind (by simp [hopening]) (by simp [hopening]) (by simp [hopening])
  have closes : Admits (closing :: rest) vs :=
    admits_of_kind (by simp [hclosing]) (by simp [hclosing]) (by simp [hclosing])
  have begins : [closing] <+: closing :: rest := List.prefix_append _ _
  exact ⟨us ++ opening :: (us₁ ++ closing :: rest), _,
    prefix_append (prefix_append (prefix_append begins us₁) [opening]) us,
    .value (.item (value.derives _ admits) hopening (key.derives _ closes) hclosing),
    calls_of_append value.nonempty rfl⟩

/-- The beginning of arguments behind an access. -/
theorem method (value : Consumed features .value us target vs) (access : target.isAccess)
    (enabled : features.methodInvocations) (paren : kindOf vs = .leftParen)
    (h : CompletesArguments features ws) :
    Completes features .unary (us ++ vs) (us ++ ws) := by
  intro rest _
  obtain ⟨ts, args, begins, derived⟩ := h rest
  have opens : kindOf ts = .leftParen := derived.opensWith
  exact ⟨us ++ ts, _, prefix_append begins us,
    .value (.method (value.derives _ (admits_paren opens paren)) access enabled derived),
    calls_of_append value.nonempty (opens.trans paren.symm)⟩

end Steps

end Completes

namespace CompletesArguments

variable {opening closing : Token}

theorem opened (hopening : opening.kind = .leftParen) :
    CompletesArguments features [opening] :=
  fun rest => ⟨opening :: ⟨.rightParen, ")", 0⟩ :: rest, [], List.prefix_append _ _,
    .noArguments hopening rfl⟩

theorem nil : CompletesArguments features [] :=
  fun rest => ⟨⟨.leftParen, "(", 0⟩ :: ⟨.rightParen, ")", 0⟩ :: rest, [], List.nil_prefix,
    .noArguments rfl rfl⟩

theorem none (hopening : opening.kind = .leftParen) (hclosing : closing.kind = .rightParen) :
    CompletesArguments features [opening, closing] :=
  fun rest => ⟨opening :: closing :: rest, [], List.prefix_append _ _,
    .noArguments hopening hclosing⟩

/-- The beginning of the first argument. -/
theorem first (hopening : opening.kind = .leftParen) (h : Completes features .expression vs ws) :
    CompletesArguments features (opening :: ws) := by
  intro rest
  obtain ⟨ts, arg, begins, derived, -⟩ := h (⟨.rightParen, ")", 0⟩ :: rest)
    (neutral_of_kind nofun nofun nofun)
  exact ⟨opening :: ts, [arg], prefix_append begins [opening],
    .arguments hopening derived .noFurther rfl⟩

/-- A first argument, and the beginning of further ones. -/
theorem further (hopening : opening.kind = .leftParen)
    (first : Consumed features .expression us x vs) (h : CompletesFurther features ws) :
    CompletesArguments features (opening :: (us ++ ws)) := by
  intro rest
  obtain ⟨ts, args, begins, comma, derived⟩ := h (⟨.rightParen, ")", 0⟩ :: rest) rfl
  have admits : Admits ts vs :=
    admits_of_kind (by simp [comma]) (by simp [comma]) (by simp [comma])
  exact ⟨opening :: (us ++ ts), x :: args, prefix_append (prefix_append begins us) [opening],
    .arguments hopening (first.derives _ admits) derived rfl⟩

/-- All arguments, and the closing parenthesis. -/
theorem closed (hopening : opening.kind = .leftParen)
    (first : Derives features .expression ws [x] vs)
    (more : Derives features .further vs args rest) :
    ∃ us, ws = us ++ rest ∧ ∀ closing : Token, closing.kind = .rightParen →
      CompletesArguments features (opening :: (us ++ [closing])) := by
  obtain ⟨us, rfl, -, head⟩ := first.retarget
  obtain ⟨us₁, rfl, -, tail⟩ := more.retarget
  refine ⟨us ++ us₁, by simp, fun closing hclosing rest' => ?_⟩
  have closes : Admits (closing :: rest') rest :=
    admits_of_kind (by simp [hclosing]) (by simp [hclosing]) (by simp [hclosing])
  have begins : [closing] <+: closing :: rest' := List.prefix_append _ _
  refine ⟨opening :: (us ++ us₁ ++ closing :: rest'), x :: args,
    prefix_append (prefix_append begins (us ++ us₁)) [opening], ?_⟩
  rw [List.append_assoc]
  exact .arguments hopening (head _ (closes.append us₁)) (tail _ closes) hclosing

end CompletesArguments

namespace CompletesFurther

variable {comma : Token}

/-- A comma, and the beginning of the next argument. -/
theorem next (hcomma : comma.kind = .comma) (h : Completes features .expression vs ws) :
    CompletesFurther features (comma :: ws) := by
  intro rest closes
  obtain ⟨ts, arg, begins, derived, -⟩ := h rest (neutral_of_kind (by simp [closes])
    (by simp [closes]) (by simp [closes]))
  exact ⟨comma :: ts, [arg], prefix_append begins [comma], hcomma,
    .further hcomma derived .noFurther⟩

/-- A comma and an argument, and the beginning of further ones. -/
theorem more (hcomma : comma.kind = .comma) (next : Consumed features .expression us x vs)
    (h : CompletesFurther features ws) : CompletesFurther features (comma :: (us ++ ws)) := by
  intro rest closes
  obtain ⟨ts, args, begins, again, derived⟩ := h rest closes
  have admits : Admits ts vs :=
    admits_of_kind (by simp [again]) (by simp [again]) (by simp [again])
  exact ⟨comma :: (us ++ ts), x :: args, prefix_append (prefix_append begins us) [comma], hcomma,
    .further hcomma (next.derives _ admits) derived⟩

end CompletesFurther

end ElTemplate.Grammar
