import ElTemplate.Proofs.Grammar.Boundaries
import ElTemplate.Proofs.Parser.Limits

/-!
# What is read is derived

If the parser for a phrase succeeds, then the tokens ahead begin with the phrase for some node. The
node fits the limits, the parser gives it with the indices of its names, and the counts are as they
were. The tape may end with an error: a parser that succeeds has not come so far.
-/

namespace ElTemplate

open ParserState (before)

namespace Parser

variable {α : Type} {outcome result : Except CompileError α} {fits : Prop} {x : α}

/-- Success was not stopped by a limit. -/
theorem Leads.of_ok (h : Leads outcome fits result) (ok : outcome = .ok x) :
    fits ∧ result = .ok x := by
  by_cases hf : fits
  · exact ⟨hf, (h.reaches hf).symm.trans ok⟩
  · obtain ⟨e, -, stopped⟩ := h.stops hf
    cases stopped.symm.trans ok

end Parser

namespace Grammar

open ElTemplate.Parser

section Statements

variable (features : FeatureSet) (final : Except ScanError Nat) (nesting : Nat)

/-- Success of the parser means that the phrase is ahead, for a node that fits. -/
def Sound (p : Parser Tape Node) (fits : Nat → Node → Prop) (phrase : Phrase) : Prop :=
  ∀ ⦃ts : List Token⦄ ⦃names : Names⦄ ⦃depth : Nat⦄ ⦃a : Node⦄ ⦃s' : ParserState Tape⦄,
    p (before ts final names nesting depth) = .ok (a, s') →
      ∃ x rest, Derives features phrase ts [x] rest ∧ fits depth x ∧
        a = (x.register features names).1 ∧
        s' = before rest final (x.register features names).2 nesting depth

/-- Success of the parser means that arguments are ahead, all of which fit. -/
def SoundArguments (p : Parser Tape (List Node)) : Prop :=
  ∀ ⦃ts : List Token⦄ ⦃names : Names⦄ ⦃depth : Nat⦄ ⦃as : List Node⦄ ⦃s' : ParserState Tape⦄,
    p (before ts final names nesting depth) = .ok (as, s') →
      ∃ args rest, Derives features .arguments ts args rest ∧ Node.FitAll nesting depth args ∧
        as = (Node.registerAll features names args).1 ∧
        s' = before rest final (Node.registerAll features names args).2 nesting depth

end Statements

variable {features : FeatureSet} {final : Except ScanError Nat} {nesting size : Nat}
  {expression operand : Parser Tape Node}

/-- One level deeper there was room for both counts. -/
theorem Sound.deeper {p : Nat → Parser Tape Node} {phrase : Phrase} {levels : Nat}
    (inner : ∀ left, levels = left + 1 →
      Sound features final (nesting + 1) (p left)
        (fun depth x => x.Fits (nesting + 1) depth) phrase) :
    Sound features final nesting (deeper p levels) (fun depth x => x.FitsWithin nesting depth)
      phrase := by
  intro ts names depth a s' h
  cases levels with
  | zero => cases h
  | succ left =>
    obtain ⟨_, s₁, entered, h⟩ := bind_eq_ok h
    obtain ⟨⟨room, deep⟩, same⟩ := leads_enter.of_ok entered
    cases same
    obtain ⟨b, s₂, read, h⟩ := bind_eq_ok h
    obtain ⟨x, rest, derived, fits, rfl, rfl⟩ := inner left rfl read
    cases h
    exact ⟨x, rest, derived, ⟨room, deep, fits⟩, rfl, rfl⟩

section Chains

variable {tier : Nat}

theorem sound_chainFrom
    (lower : Sound features final nesting operand (fun depth x => x.Fits nesting depth)
      (.chain tier))
    {budget depth folds : Nat} {start ts : List Token} {names : Names} {l a : Node}
    {s' : ParserState Tape} (derived : Derives features (.chain (tier + 1)) start [l] ts)
    (fits : l.Fits nesting depth) (hfolds : l.folds (tier + 1) = folds)
    (h : chainFrom operand (BinaryOp.ofTier? (tier + 1)) budget (l.register features names).1 folds
      (before ts final (l.register features names).2 nesting (depth + folds)) = .ok (a, s')) :
    ∃ x rest, Derives features (.chain (tier + 1)) start [x] rest ∧ x.Fits nesting depth ∧
      a = (x.register features names).1 ∧
      s' = before rest final (x.register features names).2 nesting depth := by
  induction budget generalizing ts l folds with
  | zero =>
    rw [chainFrom.eq_def, kind_before] at h
    cases hop : BinaryOp.ofTier? (tier + 1) (kindOf ts) with
    | none =>
      rw [hop] at h
      cases (bind_of_ok (release_before _)).symm.trans h
      exact ⟨l, ts, derived, fits, rfl, rfl⟩
    | some op =>
      rw [hop] at h
      cases h
  | succ budget ih =>
    rw [chainFrom.eq_def, kind_before] at h
    cases hop : BinaryOp.ofTier? (tier + 1) (kindOf ts) with
    | none =>
      rw [hop] at h
      cases (bind_of_ok (release_before _)).symm.trans h
      exact ⟨l, ts, derived, fits, rfl, rfl⟩
    | some op =>
      rw [hop] at h
      obtain ⟨hkind, htier⟩ := ofTier?_eq_some hop
      obtain ⟨_, s₁, deepened, h⟩ := bind_eq_ok h
      obtain ⟨room, same⟩ := leads_deepen.of_ok deepened
      cases same
      obtain ⟨operator, s₂, moved, h⟩ := bind_eq_ok h
      have more : kindOf ts ≠ .eof := by
        intro stop
        rw [stop] at hkind
        cases hkind
      obtain ⟨ts₁, rfl, rfl⟩ := advance_eq_ok moved more
      obtain ⟨b, s₃, read, h⟩ := bind_eq_ok h
      obtain ⟨r, rest, right, fitsRight, rfl, rfl⟩ := lower read
      have counted : (Node.binary op l r).folds (tier + 1) = folds + 1 := by
        rw [Node.folds, if_pos htier, hfolds]
      have fitsBoth : (Node.binary op l r).Fits nesting depth := by
        rw [Node.Fits, htier, hfolds]
        exact ⟨fits, room, fitsRight⟩
      exact ih (.binary derived hkind htier right) fitsBoth counted h

theorem sound_binary
    (sound : Sound features final nesting operand (fun depth x => x.Fits nesting depth) .unary)
    (tier : Nat) :
    Sound features final nesting (binary operand tier) (fun depth x => x.Fits nesting depth)
      (.chain tier) := by
  induction tier with
  | zero =>
    intro ts names depth a s' h
    obtain ⟨x, rest, derived, found⟩ := sound h
    exact ⟨x, rest, .operand derived, found⟩
  | succ tier ih =>
    intro ts names depth a s' h
    obtain ⟨b, s₁, first, h⟩ := bind_eq_ok h
    obtain ⟨x, rest, derived, fits, rfl, rfl⟩ := ih first
    have none : x.folds (tier + 1) = 0 := derived.folds_chain (Nat.lt_succ_self tier)
    exact sound_chainFrom ih (.lift derived) fits none h

end Chains

theorem sound_ternary
    (sound : Sound features final nesting operand (fun depth x => x.Fits nesting depth) .unary)
    (branch : Sound features final nesting expression
      (fun depth x => x.FitsWithin nesting depth) .expression) :
    Sound features final nesting (ternary operand expression)
      (fun depth x => x.Fits nesting depth) .expression := by
  intro ts names depth a s' h
  obtain ⟨b, s₁, first, h⟩ := bind_eq_ok h
  obtain ⟨c, ts₁, condition, fitsCondition, rfl, rfl⟩ := sound_binary sound _ first
  rw [kind_before] at h
  split at h
  · next hquestion =>
    obtain ⟨question, s₂, moved, h⟩ := bind_eq_ok h
    obtain ⟨ts₂, rfl, rfl⟩ := advance_of_kindOf moved hquestion nofun
    obtain ⟨b, s₃, second, h⟩ := bind_eq_ok h
    obtain ⟨y, ts₃, yes, fitsYes, rfl, rfl⟩ := branch second
    obtain ⟨colon, s₄, expected, h⟩ := bind_eq_ok h
    obtain ⟨ts₄, rfl, hcolon, rfl⟩ := expect_eq_ok expected nofun
    obtain ⟨b, s₅, third, h⟩ := bind_eq_ok h
    obtain ⟨n, rest, no, fitsNo, rfl, rfl⟩ := branch third
    cases h
    refine ⟨.ternary c y n, rest, .ternary condition hquestion yes hcolon no, ?_, rfl, rfl⟩
    show (Node.ternary c y n).Fits nesting depth
    rw [Node.Fits]
    exact ⟨fitsCondition, fitsYes, fitsNo⟩
  · cases h
    exact ⟨c, ts₁, .condition condition, fitsCondition, rfl, rfl⟩

theorem sound_unary {inner value : Parser Tape Node}
    (operand : Sound features final nesting inner (fun depth x => x.FitsWithin nesting depth)
      .unary)
    (sound : Sound features final nesting value (fun depth x => x.Fits nesting depth) .value) :
    Sound features final nesting (unary inner value) (fun depth x => x.Fits nesting depth)
      .unary := by
  intro ts names depth a s' h
  rw [unary, kind_before] at h
  cases hop : UnaryOp.ofKind? (kindOf ts) with
  | some op =>
    rw [hop] at h
    obtain ⟨operator, s₁, moved, h⟩ := bind_eq_ok h
    obtain ⟨ts₁, rfl, rfl⟩ := advance_eq_ok moved (opensWith_of_unary hop).2
    obtain ⟨b, s₂, read, h⟩ := bind_eq_ok h
    obtain ⟨x, rest, derived, fits, rfl, rfl⟩ := operand read
    cases h
    refine ⟨.unary op x, rest, .unary hop derived, ?_, rfl, rfl⟩
    show (Node.unary op x).Fits nesting depth
    rw [Node.Fits]
    exact fits
  | none =>
    rw [hop] at h
    obtain ⟨x, rest, derived, found⟩ := sound h
    exact ⟨x, rest, .value derived, found⟩

section Arguments

variable (sound : Sound features final nesting expression
  (fun depth x => x.FitsWithin nesting depth) .expression)

include sound

theorem sound_argumentsFrom {budget depth : Nat} {ts : List Token} {done as : List Node}
    {names : Names} {s' : ParserState Tape}
    (h : argumentsFrom expression budget done (before ts final names nesting depth) =
      .ok (as, s')) :
    ∃ args rest, Derives features .further ts args rest ∧ Node.FitAll nesting depth args ∧
      as = done.reverse ++ (Node.registerAll features names args).1 ∧
      s' = before rest final (Node.registerAll features names args).2 nesting depth := by
  induction budget generalizing ts done names with
  | zero =>
    cases h
    exact ⟨[], ts, .noFurther, trivial, (List.append_nil _).symm, rfl⟩
  | succ budget ih =>
    rw [argumentsFrom, kind_before] at h
    split at h
    · next hcomma =>
      obtain ⟨comma, s₁, moved, h⟩ := bind_eq_ok h
      obtain ⟨ts₁, rfl, rfl⟩ := advance_of_kindOf moved hcomma nofun
      obtain ⟨b, s₂, first, h⟩ := bind_eq_ok h
      obtain ⟨arg, ts₂, derived, fits, rfl, rfl⟩ := sound first
      obtain ⟨args, rest, further, fitsAll, rfl, rfl⟩ := ih h
      refine ⟨arg :: args, rest, .further hcomma derived further, ⟨fits, fitsAll⟩, ?_, rfl⟩
      rw [List.reverse_cons, List.append_assoc]
      rfl
    · cases h
      exact ⟨[], ts, .noFurther, trivial, (List.append_nil _).symm, rfl⟩

theorem sound_arguments :
    SoundArguments features final nesting (arguments size expression) := by
  intro ts names depth as s' h
  obtain ⟨opening, s₁, opened, h⟩ := bind_eq_ok h
  obtain ⟨ts₁, rfl, hopening, rfl⟩ := expect_eq_ok opened nofun
  rw [kind_before] at h
  split at h
  · next hclosing =>
    obtain ⟨_, s₂, nothing, h⟩ := bind_eq_ok h
    cases nothing
    obtain ⟨closing, s₃, closed, h⟩ := bind_eq_ok h
    obtain ⟨rest, rfl, -, rfl⟩ := expect_eq_ok closed nofun
    cases h
    exact ⟨[], rest, .noArguments hopening hclosing, trivial, rfl, rfl⟩
  · obtain ⟨b, s₂, first, h⟩ := bind_eq_ok h
    obtain ⟨arg, ts₂, derived, fits, rfl, rfl⟩ := sound first
    obtain ⟨bs, s₃, more, h⟩ := bind_eq_ok h
    obtain ⟨args, ts₃, further, fitsAll, rfl, rfl⟩ := sound_argumentsFrom sound more
    obtain ⟨closing, s₄, closed, h⟩ := bind_eq_ok h
    obtain ⟨rest, rfl, hclosing, rfl⟩ := expect_eq_ok closed nofun
    cases h
    exact ⟨arg :: args, rest, .arguments hopening derived further hclosing, ⟨fits, fitsAll⟩, rfl,
      rfl⟩

theorem sound_named {ts : List Token} {names : Names} {depth : Nat} {a : Node}
    {s' : ParserState Tape} (hname : kindOf ts = .identifier)
    (h : named features size expression (before ts final names nesting depth) = .ok (a, s')) :
    ∃ x rest, Derives features .primary ts [x] rest ∧ x.Fits nesting depth ∧
      a = (x.register features names).1 ∧
      s' = before rest final (x.register features names).2 nesting depth := by
  obtain ⟨name, s₁, moved, h⟩ := bind_eq_ok h
  obtain ⟨ts₁, rfl, rfl⟩ := advance_of_kindOf moved hname nofun
  obtain ⟨qualifies, s₂, known, h⟩ := bind_eq_ok h
  obtain ⟨rfl, rfl⟩ := atQualifiedCall_eq_ok known
  by_cases qualified : QualifiesCall ts₁
  · rw [decide_eq_true qualified, if_pos rfl] at h
    obtain ⟨colon, s₃, movedColon, h⟩ := bind_eq_ok h
    obtain ⟨hcolon, hfunction, -⟩ := qualified
    obtain ⟨ts₂, rfl, rfl⟩ := advance_of_kindOf movedColon hcolon nofun
    obtain ⟨function, s₄, movedFunction, h⟩ := bind_eq_ok h
    obtain ⟨ts₃, rfl, rfl⟩ := advance_of_kindOf movedFunction hfunction nofun
    obtain ⟨as, s₅, read, h⟩ := bind_eq_ok h
    obtain ⟨args, rest, derived, fits, rfl, rfl⟩ := sound_arguments sound read
    cases h
    exact ⟨_, rest, .qualifiedCall hname hcolon hfunction derived, fits, rfl, rfl⟩
  · rw [decide_eq_false qualified, if_neg Bool.false_ne_true, kind_before] at h
    split at h
    · obtain ⟨as, s₃, read, h⟩ := bind_eq_ok h
      obtain ⟨args, rest, derived, fits, rfl, rfl⟩ := sound_arguments sound read
      cases h
      exact ⟨_, rest, .call hname derived, fits, rfl, rfl⟩
    · cases h
      exact ⟨_, ts₁, .identifier hname qualified, trivial, rfl, rfl⟩

theorem sound_primary :
    Sound features final nesting (primary features size expression)
      (fun depth x => x.Fits nesting depth) .primary := by
  intro ts names depth a s' h
  by_cases hname : kindOf ts = .identifier
  · rw [primary, kind_before, hname] at h
    exact sound_named sound hname h
  · by_cases hopening : kindOf ts = .leftParen
    · rw [primary, kind_before, hopening] at h
      obtain ⟨opening, s₁, moved, h⟩ := bind_eq_ok h
      obtain ⟨ts₁, rfl, rfl⟩ := advance_of_kindOf moved hopening (by decide)
      obtain ⟨b, s₂, read, h⟩ := bind_eq_ok h
      obtain ⟨inner, ts₂, derived, fits, rfl, rfl⟩ := sound read
      obtain ⟨closing, s₃, closed, h⟩ := bind_eq_ok h
      obtain ⟨rest, rfl, hclosing, rfl⟩ := expect_eq_ok closed (by decide)
      cases h
      exact ⟨.bracket inner, rest, .bracket hopening derived hclosing, fits, rfl, rfl⟩
    · rw [primary_of_ne hname hopening, literal_apply] at h
      split at h
      · cases h
      · cases h
      · next value hvalue =>
        obtain ⟨t, s₁, moved, h⟩ := bind_eq_ok h
        have more : kindOf ts ≠ .eof := by
          have kind := (kind_of_literal hvalue).2.2.2.2
          rwa [before, Tape.kind_current] at kind
        obtain ⟨rest, rfl, rfl⟩ := advance_eq_ok moved more
        cases h
        exact ⟨.literal value, rest, .literal hvalue, trivial, rfl, rfl⟩

end Arguments

section Steps

variable (sound : Sound features final nesting expression
  (fun depth x => x.FitsWithin nesting depth) .expression)

include sound

/-- A key that has been read makes an access of the value before it. -/
theorem sound_accessKey {depth : Nat} {start ts : List Token} {names : Names} {base : Node}
    {key : AccessKey} {s' : ParserState Tape}
    (derived : Derives features .value start [base] ts) (fits : base.Fits nesting depth)
    (h : accessKey? expression
      (before ts final (base.register features names).2 nesting (depth + base.steps)) =
        .ok (some key, s')) :
    ∃ x rest, Derives features .value start [x] rest ∧ x.isAccess ∧ x.steps = base.steps + 1 ∧
      (depth + base.steps < maxDepth → x.Fits nesting depth) ∧
      key.access (base.register features names).1 = (x.register features names).1 ∧
      s' = before rest final (x.register features names).2 nesting (depth + base.steps) := by
  by_cases hdot : kindOf ts = .dot
  · rw [accessKey?, kind_before, hdot] at h
    obtain ⟨dot, s₁, moved, h⟩ := bind_eq_ok h
    obtain ⟨ts₁, rfl, rfl⟩ := advance_of_kindOf moved hdot (by decide)
    obtain ⟨name, s₂, expected, h⟩ := bind_eq_ok h
    obtain ⟨rest, rfl, hname, rfl⟩ := expect_eq_ok expected (by decide)
    cases h
    refine ⟨_, rest, .property derived hdot hname, rfl, rfl, fun room => ⟨fits, room⟩, ?_, rfl⟩
    rw [AccessKey.access, Node.isLiteral_register]
    rfl
  · by_cases hopening : kindOf ts = .leftBracket
    · rw [accessKey?, kind_before, hopening] at h
      obtain ⟨opening, s₁, moved, h⟩ := bind_eq_ok h
      obtain ⟨ts₁, rfl, rfl⟩ := advance_of_kindOf moved hopening (by decide)
      obtain ⟨b, s₂, read, h⟩ := bind_eq_ok h
      obtain ⟨index, ts₂, inner, within, rfl, rfl⟩ := sound read
      obtain ⟨closing, s₃, closed, h⟩ := bind_eq_ok h
      obtain ⟨rest, rfl, hclosing, rfl⟩ := expect_eq_ok closed (by decide)
      cases h
      refine ⟨_, rest, .item derived hopening inner hclosing, rfl, rfl,
        fun room => ⟨fits, within, room⟩, ?_, rfl⟩
      rw [AccessKey.access, Node.isLiteral_register]
      rfl
    · cases (accessKey?_of_ne hdot hopening).symm.trans h

omit sound in
/-- Looking for a key that is not there changes nothing. -/
theorem accessKey?_eq_none {depth : Nat} {ts : List Token} {names : Names}
    {s' : ParserState Tape}
    (h : accessKey? expression (before ts final names nesting depth) = .ok (none, s')) :
    s' = before ts final names nesting depth := by
  by_cases hdot : kindOf ts = .dot
  · rw [accessKey?, kind_before, hdot] at h
    obtain ⟨dot, s₁, -, h⟩ := bind_eq_ok h
    obtain ⟨name, s₂, -, h⟩ := bind_eq_ok h
    cases h
  · by_cases hopening : kindOf ts = .leftBracket
    · rw [accessKey?, kind_before, hopening] at h
      obtain ⟨opening, s₁, -, h⟩ := bind_eq_ok h
      obtain ⟨b, s₂, -, h⟩ := bind_eq_ok h
      obtain ⟨closing, s₃, -, h⟩ := bind_eq_ok h
      cases h
    · cases (accessKey?_of_ne hdot hopening).symm.trans h
      rfl

/-- Arguments behind an access make it a method call. -/
theorem sound_invocation {depth : Nat} {start ts : List Token} {names : Names} {target a : Node}
    {s' : ParserState Tape} (derived : Derives features .value start [target] ts)
    (access : target.isAccess) (fits : target.Fits nesting depth)
    (h : invocation features size expression (target.register features names).1
      (before ts final (target.register features names).2 nesting (depth + target.steps)) =
        .ok (a, s')) :
    ∃ x rest, Derives features .value start [x] rest ∧ x.Fits nesting depth ∧
      x.steps = target.steps ∧ a = (x.register features names).1 ∧
      s' = before rest final (x.register features names).2 nesting (depth + target.steps) := by
  rw [invocation, kind_before] at h
  split at h
  · next enabled =>
    obtain ⟨as, s₁, read, h⟩ := bind_eq_ok h
    obtain ⟨args, rest, arguments, within, rfl, rfl⟩ := sound_arguments sound read
    cases h
    exact ⟨.method target args, rest, .method derived access enabled.1 arguments, ⟨fits, within⟩,
      rfl, rfl, rfl⟩
  · cases h
    exact ⟨target, ts, derived, fits, rfl, rfl, rfl⟩

theorem sound_stepsFrom {budget depth steps : Nat} {start ts : List Token} {names : Names}
    {base a : Node} {s' : ParserState Tape} (derived : Derives features .value start [base] ts)
    (fits : base.Fits nesting depth) (hsteps : base.steps = steps)
    (h : stepsFrom features size expression budget (base.register features names).1 steps
      (before ts final (base.register features names).2 nesting (depth + steps)) =
        .ok (a, s')) :
    ∃ x rest, Derives features .value start [x] rest ∧ x.Fits nesting depth ∧
      a = (x.register features names).1 ∧
      s' = before rest final (x.register features names).2 nesting depth := by
  induction budget generalizing ts base steps with
  | zero =>
    rw [stepsFrom.eq_def] at h
    obtain ⟨key?, s₁, read, h⟩ := bind_eq_ok h
    cases key? with
    | none =>
      rw [accessKey?_eq_none read] at h
      cases (bind_of_ok (release_before steps)).symm.trans h
      exact ⟨base, ts, derived, fits, rfl, rfl⟩
    | some key => cases h
  | succ budget ih =>
    subst hsteps
    rw [stepsFrom.eq_def] at h
    obtain ⟨key?, s₁, read, h⟩ := bind_eq_ok h
    cases key? with
    | none =>
      rw [accessKey?_eq_none read] at h
      cases (bind_of_ok (release_before base.steps)).symm.trans h
      exact ⟨base, ts, derived, fits, rfl, rfl⟩
    | some key =>
      obtain ⟨x, ts₁, accessed, access, counted, within, same, rfl⟩ :=
        sound_accessKey sound derived fits read
      obtain ⟨_, s₂, deepened, h⟩ := bind_eq_ok h
      obtain ⟨room, same'⟩ := leads_deepen.of_ok deepened
      cases same'
      obtain ⟨b, s₃, invoked, h⟩ := bind_eq_ok h
      rw [same, Nat.add_assoc, ← counted] at invoked
      obtain ⟨y, ts₂, value, fitsValue, steps, rfl, rfl⟩ :=
        sound_invocation sound accessed access (within room) invoked
      rw [← counted, ← steps] at h
      exact ih value fitsValue rfl h

theorem sound_value :
    Sound features final nesting (value features size expression)
      (fun depth x => x.Fits nesting depth) .value := by
  intro ts names depth a s' h
  obtain ⟨b, s₁, first, h⟩ := bind_eq_ok h
  obtain ⟨x, ts₁, derived, fits, rfl, rfl⟩ := sound_primary sound first
  exact sound_stepsFrom sound (.primary derived) fits derived.steps_primary h

end Steps

/-- With any number of levels left, expressions and operands are read soundly. -/
theorem sound_level (levels : Nat) :
    ∀ nesting, Sound features final nesting (level features size levels).expression
        (fun depth x => x.FitsWithin nesting depth) .expression ∧
      Sound features final nesting (level features size levels).operand
        (fun depth x => x.Fits nesting depth) .unary := by
  induction levels with
  | zero =>
    intro nesting
    have expression : Sound features final nesting (level features size 0).expression
        (fun depth x => x.FitsWithin nesting depth) .expression := by
      rw [level_expression]
      exact .deeper nofun
    refine ⟨expression, ?_⟩
    rw [level_operand]
    exact sound_unary (.deeper nofun) (sound_value expression)
  | succ levels ih =>
    intro nesting
    have expression : Sound features final nesting (level features size (levels + 1)).expression
        (fun depth x => x.FitsWithin nesting depth) .expression := by
      rw [level_expression]
      apply Sound.deeper
      intro left hleft
      cases hleft
      exact sound_ternary (ih (nesting + 1)).2 (ih (nesting + 1)).1
    refine ⟨expression, ?_⟩
    rw [level_operand]
    refine sound_unary (.deeper fun left hleft => ?_) (sound_value expression)
    cases hleft
    exact (ih (nesting + 1)).2

end Grammar

end ElTemplate
