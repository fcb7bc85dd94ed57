import ElTemplate.Proofs.Parser.Equations

/-!
# The limits decide, not the recursion

The parser is defined by recursion on the levels, operators and steps that may still be read. These
numbers only make the recursion end: where one of them is used up, the counts of the state have
reached a limit already and would refuse to go on. So two parsers agree wherever both numbers cover
what the counts leave, and larger numbers give the same parser.
-/

namespace ElTemplate.Parser

variable {σ α β : Type} {n n' n'' d d' d'' levels levels' : Nat}

/-- Where at least `n` and `d` have been counted, the parsers do the same, and then `n'` and `d'`
have been counted at least. -/
def AgreeFrom (n d n' d' : Nat) (p q : Parser σ α) : Prop :=
  ∀ s : ParserState σ, n ≤ s.nesting → d ≤ s.depth →
    p s = q s ∧ ∀ a s', p s = .ok (a, s') → n' ≤ s'.nesting ∧ d' ≤ s'.depth

/-- Where at least `n` has been counted as nesting, the parsers do the same and keep both counts. -/
def EqualFrom (n : Nat) (p q : Parser σ α) : Prop :=
  ∀ d, AgreeFrom n d n d p q

namespace AgreeFrom

variable {p q : Parser σ α} {f g : α → Parser σ β}

theorem symm (h : AgreeFrom n d n' d' p q) : AgreeFrom n d n' d' q p := by
  intro s hn hd
  obtain ⟨same, counts⟩ := h s hn hd
  exact ⟨same.symm, fun a s' ok => counts a s' (same.trans ok)⟩

/-- A sequence goes on from where its first parts agree to have come. -/
theorem bind (h : AgreeFrom n d n' d' p q) (next : ∀ a, AgreeFrom n' d' n'' d'' (f a) (g a)) :
    AgreeFrom n d n'' d'' (p >>= f) (q >>= g) := by
  intro s hn hd
  obtain ⟨same, counts⟩ := h s hn hd
  cases first : p s with
  | error e =>
    rw [bind_of_error first, bind_of_error (same.symm.trans first)]
    exact ⟨rfl, nofun⟩
  | ok x =>
    obtain ⟨hn', hd'⟩ := counts x.1 x.2 first
    rw [bind_of_ok first, bind_of_ok (same.symm.trans first)]
    exact next x.1 x.2 hn' hd'

/-- What leaves the counts as they are agrees with itself. -/
theorem of_kept (kept : ∀ s a s', p s = .ok (a, s') → s'.nesting = s.nesting ∧ s'.depth = s.depth) :
    EqualFrom n p p := by
  intro d s hn hd
  refine ⟨rfl, fun a s' ok => ?_⟩
  obtain ⟨nesting, depth⟩ := kept s a s' ok
  exact ⟨nesting ▸ hn, depth ▸ hd⟩

theorem pure (a : α) : AgreeFrom n d n d (pure a : Parser σ α) (pure a) :=
  of_kept (by rintro s a s' ⟨⟩; exact ⟨rfl, rfl⟩) d

theorem release (k : Nat) : AgreeFrom n (d + k) n d (release k : Parser σ Unit) (release k) := by
  intro s hn hd
  refine ⟨rfl, ?_⟩
  rintro _ _ ⟨⟩
  exact ⟨hn, Nat.le_sub_of_add_le hd⟩

theorem leave : AgreeFrom (n + 1) (d + 1) n d (leave : Parser σ Unit) leave := by
  intro s hn hd
  refine ⟨rfl, ?_⟩
  rintro _ _ ⟨⟩
  exact ⟨Nat.le_sub_of_add_le hn, Nat.le_sub_of_add_le hd⟩

variable [TokenSource σ]

theorem refuse (expected : Expectation) :
    AgreeFrom n d n' d' (refuse expected : Parser σ α) (refuse expected) :=
  fun _ _ _ => ⟨rfl, nofun⟩

theorem deepen : AgreeFrom n d n (d + 1) (deepen : Parser σ Unit) deepen := by
  intro s hn hd
  refine ⟨rfl, fun _ s' ok => ?_⟩
  obtain ⟨-, rfl⟩ := deepen_eq_ok ok
  exact ⟨hn, Nat.succ_le_succ hd⟩

theorem enter : AgreeFrom n d (n + 1) (d + 1) (enter : Parser σ Unit) enter := by
  intro s hn hd
  refine ⟨rfl, fun _ s' ok => ?_⟩
  obtain ⟨-, -, rfl⟩ := enter_eq_ok ok
  exact ⟨Nat.succ_le_succ hn, Nat.succ_le_succ hd⟩

/-- Where the depth is used up, one level more is refused. -/
theorem refuse_deepen (full : maxDepth ≤ d) (f : Unit → Parser σ α) :
    AgreeFrom n d n' d' (Parser.refuse .depthLimit) (Parser.deepen >>= f) := by
  intro s _ hd
  have refused : Parser.deepen s = .error (.parse ⟨TokenSource.current s.source, .depthLimit⟩) :=
    if_neg (Nat.not_le.mpr (Nat.lt_succ_of_le (Nat.le_trans full hd)))
  exact ⟨(bind_of_error refused).symm, nofun⟩

/-- Where the nesting is used up, one level more is refused. -/
theorem refuse_nested (full : maxNesting ≤ n) (p : Parser σ α) :
    AgreeFrom n d n' d' (Parser.refuse .nestingLimit) (nested p) := by
  intro s hn _
  have refused : Parser.enter s = .error (.parse ⟨TokenSource.current s.source, .nestingLimit⟩) :=
    if_neg (Nat.not_le.mpr (Nat.lt_succ_of_le (Nat.le_trans full hn)))
  exact ⟨(bind_of_error refused).symm, nofun⟩

theorem nested (h : EqualFrom (n + 1) p q) : EqualFrom n (nested p) (nested q) :=
  fun d => enter.bind fun _ => (h (d + 1)).bind fun a => leave.bind fun _ => .pure a

end AgreeFrom

namespace EqualFrom

/-- Parsers that agree at every state are the same. -/
theorem eq {p q : Parser σ α} (h : EqualFrom 0 p q) : p = q :=
  funext fun s => (h 0 s (Nat.zero_le _) (Nat.zero_le _)).1

section Names

theorem identifier (name : String) :
    EqualFrom n (identifier name : Parser σ Node) (identifier name) :=
  AgreeFrom.of_kept (by rintro s a s' ⟨⟩; exact ⟨rfl, rfl⟩)

theorem call (features : FeatureSet) (qualifier : Option String) (name : String)
    (arguments : List Node) : EqualFrom n (call features qualifier name arguments : Parser σ Node)
      (call features qualifier name arguments) :=
  AgreeFrom.of_kept (by rintro s a s' ⟨⟩; exact ⟨rfl, rfl⟩)

end Names

variable [TokenSource σ]

section Steps

theorem kind : EqualFrom n (kind : Parser σ Token.Kind) kind :=
  AgreeFrom.of_kept (by rintro s a s' ⟨⟩; exact ⟨rfl, rfl⟩)

theorem advance : EqualFrom n (advance : Parser σ Token) advance :=
  AgreeFrom.of_kept fun s a s' ok => by
    rw [(advance_apply_eq_ok ok).2.2]
    exact ⟨rfl, rfl⟩

theorem ahead (index : Nat) : EqualFrom n (ahead index : Parser σ Token.Kind) (ahead index) :=
  AgreeFrom.of_kept fun s a s' ok => by
    rw [(ahead_apply_eq_ok ok).2]
    exact ⟨rfl, rfl⟩

theorem expect (expected : Token.Kind) :
    EqualFrom n (expect expected : Parser σ Token) (expect expected) := by
  intro d
  refine (kind d).bind fun k => ?_
  split
  · exact advance d
  · exact .refuse _

theorem literal : EqualFrom n (literal : Parser σ Node) literal := by
  refine AgreeFrom.of_kept fun s a s' ok => ?_
  rw [literal_apply] at ok
  split at ok
  · cases ok
  · cases ok
  · obtain ⟨t, s₁, moved, ok⟩ := bind_eq_ok ok
    cases ok
    rw [(advance_apply_eq_ok moved).2.2]
    exact ⟨rfl, rfl⟩

theorem atQualifiedCall : EqualFrom n (atQualifiedCall : Parser σ Bool) atQualifiedCall := by
  intro d
  refine (kind d).bind fun k => ?_
  split
  · refine (ahead 0 d).bind fun k => ?_
    split
    · exact (ahead 1 d).bind fun k => .pure _
    · exact .pure _
  · exact .pure _

end Steps

variable {operand operand' expression expression' inner inner' base base' : Parser σ Node}
  {features : FeatureSet} {size : Nat} {operator? : Token.Kind → Option BinaryOp}

section Chains

/-- Chains agree where both budgets cover the depth that is left. -/
theorem chainFrom (operands : EqualFrom n operand operand') {budget budget' folds : Nat}
    (enough : maxDepth ≤ d + folds + budget) (enough' : maxDepth ≤ d + folds + budget')
    (left : Node) : AgreeFrom n (d + folds) n d (chainFrom operand operator? budget left folds)
      (chainFrom operand' operator? budget' left folds) := by
  induction budget generalizing budget' folds left with
  | zero =>
    rw [Parser.chainFrom.eq_def, Parser.chainFrom.eq_def]
    refine (kind _).bind fun k => ?_
    cases operator? k with
    | none => exact (AgreeFrom.release folds).bind fun _ => .pure left
    | some op =>
      cases budget' with
      | zero => exact .refuse _
      | succ budget' => exact .refuse_deepen enough _
  | succ budget ih =>
    rw [Parser.chainFrom.eq_def, Parser.chainFrom.eq_def]
    refine (kind _).bind fun k => ?_
    cases operator? k with
    | none => exact (AgreeFrom.release folds).bind fun _ => .pure left
    | some op =>
      cases budget' with
      | zero => exact (AgreeFrom.refuse_deepen enough' _).symm
      | succ budget' =>
        have enough : maxDepth ≤ d + (folds + 1) + budget := by omega
        have enough' : maxDepth ≤ d + (folds + 1) + budget' := by omega
        exact AgreeFrom.deepen.bind fun _ => (advance _).bind fun _ =>
          (operands _).bind fun right => ih enough enough' (.binary op left right)

/-- A chain is the same under every budget that covers the depth. -/
theorem chain_budget (operands : EqualFrom n operand operand') {budget : Nat}
    (enough : maxDepth ≤ budget) : EqualFrom n (chain operand operator?)
      (operand' >>= fun left => Parser.chainFrom operand' operator? budget left 0) := fun d =>
  (operands d).bind fun left =>
    show AgreeFrom n (d + 0) n d _ _ from
      chainFrom operands (Nat.le_add_left ..) (Nat.le_trans enough (Nat.le_add_left ..)) left

theorem chain (operands : EqualFrom n operand operand') :
    EqualFrom n (chain operand operator?) (chain operand' operator?) :=
  operands.chain_budget (Nat.le_refl _)

theorem binary (operands : EqualFrom n operand operand') (tier : Nat) :
    EqualFrom n (binary operand tier) (binary operand' tier) := by
  induction tier with
  | zero => exact operands
  | succ tier ih => exact ih.chain

end Chains

section Values

theorem argumentsFrom (whole : EqualFrom n expression expression') (budget : Nat)
    (arguments : List Node) : EqualFrom n (argumentsFrom expression budget arguments)
      (argumentsFrom expression' budget arguments) := by
  intro d
  induction budget generalizing arguments with
  | zero => exact .pure _
  | succ budget ih =>
    rw [Parser.argumentsFrom, Parser.argumentsFrom]
    refine (kind d).bind fun k => ?_
    split
    · exact (advance d).bind fun _ => (whole d).bind fun argument => ih (argument :: arguments)
    · exact .pure _

theorem arguments (whole : EqualFrom n expression expression') :
    EqualFrom n (arguments size expression) (arguments size expression') := by
  intro d
  refine (expect .leftParen d).bind fun _ => (kind d).bind fun k => ?_
  have closed (arguments : List Node) : AgreeFrom n d n d
      (Parser.expect .rightParen >>= fun _ => pure arguments : Parser σ _)
      (Parser.expect .rightParen >>= fun _ => pure arguments) :=
    (expect .rightParen d).bind fun _ => .pure _
  split
  · exact (AgreeFrom.pure _).bind closed
  · exact (whole d).bind fun argument => (whole.argumentsFrom size [argument] d).bind closed

theorem named (whole : EqualFrom n expression expression') :
    EqualFrom n (named features size expression) (named features size expression') := by
  intro d
  refine (advance d).bind fun t => (atQualifiedCall d).bind fun qualified => ?_
  split
  · exact (advance d).bind fun _ => (advance d).bind fun _ =>
      (whole.arguments d).bind fun arguments => call _ _ _ arguments d
  · refine (kind d).bind fun k => ?_
    split
    · exact (whole.arguments d).bind fun arguments => call _ _ _ arguments d
    · exact identifier _ d

theorem primary (whole : EqualFrom n expression expression') :
    EqualFrom n (primary features size expression) (primary features size expression') := by
  intro d
  refine (kind d).bind fun k => ?_
  split
  · exact whole.named d
  · exact (advance d).bind fun _ => (whole d).bind fun inner =>
      (expect .rightParen d).bind fun _ => .pure _
  · exact literal d

theorem accessKey? (whole : EqualFrom n expression expression') :
    EqualFrom n (accessKey? expression) (accessKey? expression') := by
  intro d
  refine (kind d).bind fun k => ?_
  split
  · exact (advance d).bind fun _ => (expect .identifier d).bind fun _ => .pure _
  · exact (advance d).bind fun _ => (whole d).bind fun key =>
      (expect .rightBracket d).bind fun _ => .pure _
  · exact .pure _

theorem invocation (whole : EqualFrom n expression expression') (target : Node) :
    EqualFrom n (invocation features size expression target)
      (invocation features size expression' target) := by
  intro d
  refine (kind d).bind fun k => ?_
  split
  · exact (whole.arguments d).bind fun arguments => .pure _
  · exact .pure _

/-- Access steps agree where both budgets cover the depth that is left. -/
theorem stepsFrom (whole : EqualFrom n expression expression') {budget budget' steps : Nat}
    (enough : maxDepth ≤ d + steps + budget) (enough' : maxDepth ≤ d + steps + budget')
    (base : Node) : AgreeFrom n (d + steps) n d
      (stepsFrom features size expression budget base steps)
      (stepsFrom features size expression' budget' base steps) := by
  induction budget generalizing budget' steps base with
  | zero =>
    rw [Parser.stepsFrom.eq_def, Parser.stepsFrom.eq_def]
    refine (whole.accessKey? _).bind fun key => ?_
    cases key with
    | none => exact (AgreeFrom.release steps).bind fun _ => .pure base
    | some key =>
      cases budget' with
      | zero => exact .refuse _
      | succ budget' => exact .refuse_deepen enough _
  | succ budget ih =>
    rw [Parser.stepsFrom.eq_def, Parser.stepsFrom.eq_def]
    refine (whole.accessKey? _).bind fun key => ?_
    cases key with
    | none => exact (AgreeFrom.release steps).bind fun _ => .pure base
    | some key =>
      cases budget' with
      | zero => exact (AgreeFrom.refuse_deepen enough' _).symm
      | succ budget' =>
        have enough : maxDepth ≤ d + (steps + 1) + budget := by omega
        have enough' : maxDepth ≤ d + (steps + 1) + budget' := by omega
        exact AgreeFrom.deepen.bind fun _ => (whole.invocation _ _).bind fun value =>
          ih enough enough' value

/-- A value is the same under every budget that covers the depth. -/
theorem value_budget (whole : EqualFrom n expression expression') {budget : Nat}
    (enough : maxDepth ≤ budget) : EqualFrom n (value features size expression)
      (Parser.primary features size expression' >>= fun base =>
        Parser.stepsFrom features size expression' budget base 0) := fun d =>
  (whole.primary d).bind fun base =>
    show AgreeFrom n (d + 0) n d _ _ from
      stepsFrom whole (Nat.le_add_left ..) (Nat.le_trans enough (Nat.le_add_left ..)) base

theorem value (whole : EqualFrom n expression expression') :
    EqualFrom n (value features size expression) (value features size expression') :=
  whole.value_budget (Nat.le_refl _)

theorem unary (inners : EqualFrom n inner inner') (values : EqualFrom n base base') :
    EqualFrom n (unary inner base) (unary inner' base') := by
  intro d
  refine (kind d).bind fun k => ?_
  split
  · exact (advance d).bind fun _ => (inners d).bind fun a => .pure _
  · exact values d

theorem ternary (operands : EqualFrom n operand operand')
    (whole : EqualFrom n expression expression') :
    EqualFrom n (ternary operand expression) (ternary operand' expression') := by
  intro d
  refine (operands.binary _ d).bind fun condition => (kind d).bind fun k => ?_
  split
  · exact (advance d).bind fun _ => (whole d).bind fun yes => (expect .colon d).bind fun _ =>
      (whole d).bind fun no => .pure _
  · exact .pure _

end Values

/-- However many levels are left, the counts are kept. -/
theorem kept (features : FeatureSet) (size levels : Nat) :
    EqualFrom n (level features size levels : Level σ).expression
        (level features size levels).expression ∧
      EqualFrom n (level features size levels : Level σ).operand
        (level features size levels).operand := by
  induction levels generalizing n with
  | zero =>
    have same : EqualFrom n (Parser.refuse .nestingLimit : Parser σ Node)
        (Parser.refuse .nestingLimit) := fun _ => .refuse _
    exact ⟨same, unary same (value same)⟩
  | succ levels ih =>
    obtain ⟨whole, operands⟩ := ih (n := n + 1)
    have outer := AgreeFrom.nested (ternary operands whole)
    exact ⟨outer, unary (AgreeFrom.nested operands) (value outer)⟩

/-- The parsers agree where both numbers of levels cover the nesting that is left. -/
theorem level (features : FeatureSet) (size : Nat) (enough : maxNesting ≤ n + levels)
    (enough' : maxNesting ≤ n + levels') :
    EqualFrom n (level features size levels : Level σ).expression
        (level features size levels').expression ∧
      EqualFrom n (level features size levels : Level σ).operand
        (level features size levels').operand := by
  induction levels generalizing n levels' with
  | zero =>
    cases levels' with
    | zero => exact kept features size 0
    | succ levels' =>
      have refused (p : Parser σ Node) :
          EqualFrom n (Parser.refuse .nestingLimit) (Parser.nested p) :=
        fun _ => .refuse_nested enough p
      exact ⟨refused _, unary (refused _) (value (refused _))⟩
  | succ levels ih =>
    cases levels' with
    | zero =>
      have refused (p : Parser σ Node) :
          EqualFrom n (Parser.nested p) (Parser.refuse .nestingLimit) :=
        fun _ => (AgreeFrom.refuse_nested enough' p).symm
      exact ⟨refused _, unary (refused _) (value (refused _))⟩
    | succ levels' =>
      have enough : maxNesting ≤ n + 1 + levels := by omega
      have enough' : maxNesting ≤ n + 1 + levels' := by omega
      obtain ⟨whole, operands⟩ := ih enough enough'
      have outer := AgreeFrom.nested (ternary operands whole)
      exact ⟨outer, unary (AgreeFrom.nested operands) (value outer)⟩

end EqualFrom

section Enough

variable [TokenSource σ] (features : FeatureSet) (size levels : Nat) {budget : Nat}

/-- With all the levels that may be nested, or more, expressions are the same. -/
theorem expression_eq_level (enough : maxNesting ≤ levels) :
    (expression features size : Parser σ Node) = (level features size levels).expression := by
  have covers : maxNesting ≤ 0 + levels := (Nat.zero_add levels).symm ▸ enough
  exact (EqualFrom.level features size (Nat.le_add_left ..) covers).1.eq

/-- Under every budget that covers the depth, the chains of a tier are the same. -/
theorem binary_eq_chainFrom (enough : maxDepth ≤ budget) (tier : Nat) :
    let operand : Parser σ Node := (level features size levels).operand
    binary operand (tier + 1) = (do
      chainFrom (binary operand tier) (BinaryOp.ofTier? (tier + 1)) budget
        (← binary operand tier) 0) :=
  ((EqualFrom.kept features size levels).2.binary tier).chain_budget enough |>.eq

/-- Under every budget that covers the depth, values are the same. -/
theorem value_eq_stepsFrom (enough : maxDepth ≤ budget) :
    let whole : Parser σ Node := (level features size levels).expression
    value features size whole = (do
      stepsFrom features size whole budget (← primary features size whole) 0) :=
  ((EqualFrom.kept features size levels).1.value_budget enough).eq

end Enough

end ElTemplate.Parser
