import ElTemplate.Proofs.Grammar.Limits

/-!
# Where phrases begin and end

One token of lookahead is enough to find the end of every phrase. A phrase that could go on with the
token behind it never stands before such a token, because the tokens that close a phrase go on with
none. The chains of a tree are counted from the tier that its derivation ends with.
-/

namespace ElTemplate

namespace Grammar

/-- Whether the kind goes on with a value: with an access step, or with arguments. -/
def continuesValue (k : Token.Kind) : Bool :=
  k == .dot || k == .leftBracket || k == .leftParen

/-- Whether the kind goes on with a chain of the first tiers. -/
def continuesChain (tier : Nat) (k : Token.Kind) : Bool :=
  (BinaryOp.ofKind? k).any (·.tier ≤ tier) || continuesValue k

/-- Whether the kind goes on with an expression. -/
def continuesExpression (k : Token.Kind) : Bool :=
  k == .question || continuesChain BinaryOp.tiers k

/-- Which kinds a phrase can begin with, as far as this decides how it is read. -/
def Phrase.OpensWith : Phrase → Token.Kind → Prop
  | value, k | primary, k => UnaryOp.ofKind? k = none ∧ k ≠ .rightParen
  | arguments, k => k = .leftParen
  | further, _ => True
  | _, k => k ≠ .rightParen

variable {features : FeatureSet} {phrase : Phrase} {ts rest : List Token} {nodes : List Node}
  {x : Node} {tier : Nat} {k : Token.Kind} {t : Token}

theorem continuesChain_of_succ (h : continuesChain (tier + 1) k = false) :
    continuesChain tier k = false := by
  rw [continuesChain, Bool.or_eq_false_iff] at h ⊢
  refine ⟨?_, h.2⟩
  cases hk : BinaryOp.ofKind? k with
  | none => rfl
  | some op =>
    have above : ¬ op.tier ≤ tier + 1 := by simpa [hk] using h.1
    have : ¬ op.tier ≤ tier := by omega
    simpa using this

theorem continuesChain_of_expression (h : continuesExpression k = false) :
    continuesChain BinaryOp.tiers k = false :=
  (Bool.or_eq_false_iff.mp h).2

theorem continuesChain_zero : continuesChain 0 k = continuesValue k := by
  cases k <;> rfl

/-- A chain ends before an operator of the next tier. -/
theorem continuesChain_of_tier {op : BinaryOp} (hop : BinaryOp.ofKind? k = some op)
    (htier : op.tier = tier + 1) : continuesChain tier k = false := by
  have far : ¬ op.tier ≤ tier := by omega
  have apart : continuesValue k = false := by
    cases k <;> first | rfl | cases hop
  simp [continuesChain, hop, far, apart]

theorem ofTier?_of_tier {op : BinaryOp} (hop : BinaryOp.ofKind? k = some op)
    (htier : op.tier = tier) : BinaryOp.ofTier? tier k = some op := by
  simp [BinaryOp.ofTier?, hop, htier]

theorem ofTier?_eq_some {op : BinaryOp} (h : BinaryOp.ofTier? tier k = some op) :
    BinaryOp.ofKind? k = some op ∧ op.tier = tier := by
  simpa [BinaryOp.ofTier?, Option.filter_eq_some_iff] using h

theorem ofTier?_of_ends (h : continuesChain tier k = false) : BinaryOp.ofTier? tier k = none := by
  cases hk : BinaryOp.ofTier? tier k with
  | none => rfl
  | some op =>
    obtain ⟨hop, htier⟩ := ofTier?_eq_some hk
    simp [continuesChain, hop, htier] at h

theorem ne_of_continuesValue (h : continuesValue k = false) :
    k ≠ .dot ∧ k ≠ .leftBracket ∧ k ≠ .leftParen := by
  refine ⟨?_, ?_, ?_⟩ <;> rintro rfl <;> cases h

/-- The kinds of literals are those of no operator and no bracket. -/
theorem kind_of_literal {value : Literal} (h : Literal.ofToken? t = some (.ok value)) :
    UnaryOp.ofKind? t.kind = none ∧ t.kind ≠ .rightParen ∧ t.kind ≠ .leftParen ∧
      t.kind ≠ .identifier ∧ t.kind ≠ .eof := by
  obtain ⟨kind, image, position⟩ := t
  cases kind <;> first | (cases h; done) | exact ⟨rfl, nofun, nofun, nofun, nofun⟩

theorem opensWith_of_unary {op : UnaryOp} (h : UnaryOp.ofKind? k = some op) :
    k ≠ .rightParen ∧ k ≠ .eof := by
  constructor <;> rintro rfl <;> cases h

theorem Derives.opensWith (h : Derives features phrase ts nodes rest) :
    phrase.OpensWith (kindOf ts) := by
  induction h with
  | condition _ ih => exact ih
  | ternary _ _ _ _ _ ih _ _ => exact ih
  | operand _ ih => exact ih
  | lift _ ih => exact ih
  | binary _ _ _ _ ih _ => exact ih
  | unary hop _ _ => exact (opensWith_of_unary hop).1
  | value _ ih => exact ih.2
  | primary _ ih => exact ih
  | property _ _ _ ih => exact ih
  | item _ _ _ _ ih _ => exact ih
  | method _ _ _ _ ih _ => exact ih
  | identifier hname _ => simp [Phrase.OpensWith, hname, UnaryOp.ofKind?]
  | call hname _ _ => simp [Phrase.OpensWith, hname, UnaryOp.ofKind?]
  | qualifiedCall hname _ _ _ _ => simp [Phrase.OpensWith, hname, UnaryOp.ofKind?]
  | bracket hopening _ _ _ => simp [Phrase.OpensWith, hopening, UnaryOp.ofKind?]
  | literal hvalue => exact ⟨(kind_of_literal hvalue).1, (kind_of_literal hvalue).2.1⟩
  | noArguments hopening _ => exact hopening
  | arguments hopening _ _ _ _ _ => exact hopening
  | noFurther => trivial
  | further _ _ _ _ _ => trivial

/-- Behind an argument stands a comma, or what stands behind all of them. -/
theorem Derives.further_kind (h : Derives features .further ts nodes rest) :
    kindOf ts = .comma ∨ ts = rest := by
  cases h with
  | noFurther => exact .inr rfl
  | further hcomma _ _ => exact .inl hcomma

/-- No binary operator is the last step of an operand. -/
theorem Derives.folds_unary (h : Derives features .unary ts [x] rest) (tier : Nat) :
    x.folds tier = 0 := by
  cases h with
  | unary => rfl
  | value value =>
    cases value with
    | primary primary => cases primary <;> rfl
    | property => rfl
    | item => rfl
    | method => rfl

/-- A chain of the first tiers has no operator of a later tier outermost. -/
theorem Derives.folds_chain (h : Derives features (.chain tier) ts [x] rest) {later : Nat}
    (hlater : tier < later) : x.folds later = 0 := by
  induction tier generalizing ts x rest with
  | zero =>
    cases h with
    | operand unary => exact unary.folds_unary later
  | succ tier ih =>
    cases h with
    | lift lower => exact ih lower (Nat.lt_of_succ_lt hlater)
    | binary _ _ htier _ =>
      rw [Node.folds, if_neg (by omega)]

/-- No access step is the last step of a primary. -/
theorem Derives.steps_primary (h : Derives features .primary ts [x] rest) : x.steps = 0 := by
  cases h <;> rfl

theorem Derives.isAccess_primary (h : Derives features .primary ts [x] rest) :
    x.isAccess = false := by
  cases h <;> rfl

end Grammar

namespace Node

/-- What fits is not counted beyond the limit of depth. -/
theorem Fits.folds_le {nesting depth : Nat} {x : Node} (h : x.Fits nesting depth)
    (hdepth : depth ≤ maxDepth) (tier : Nat) : depth + x.folds tier ≤ maxDepth := by
  cases x with
  | binary op left right =>
    rw [folds]
    split
    · next same =>
      subst same
      rw [Fits] at h
      omega
    · exact hdepth
  | _ => exact hdepth

theorem Fits.steps_le {nesting depth : Nat} {x : Node} (h : x.Fits nesting depth)
    (hdepth : depth ≤ maxDepth) : depth + x.steps ≤ maxDepth := by
  induction x using Node.steps.induct with
  | case1 base name assignable ih =>
    rw [Fits] at h
    rw [steps]
    omega
  | case2 base key assignable ih =>
    rw [Fits] at h
    rw [steps]
    omega
  | case3 target args ih =>
    rw [Fits] at h
    exact ih h.1
  | case4 x _ _ _ =>
    rw [steps] <;> first | exact hdepth | assumption

end Node

end ElTemplate
