import ElTemplate.Proofs.Grammar.Blame

/-!
# Expressions blame the right place

If the parser for a phrase fails, then it has run into a limit, or the error blames a place up to
which the tokens complete to the phrase. One lemma for each construct takes this from its parts: the
parts that have been read are there, and the part that failed is completed with what is missing
behind it.
-/

namespace ElTemplate

open ParserState (before)

namespace Grammar

open ElTemplate.Parser

/-- The parser leaves a tape that ends well if it is given one. -/
def Keeps {α : Type} (p : Parser Tape α) : Prop :=
  Simulates (fun _ => False) (fun a b : Tape => a = b ∧ a.EndsWell) p p

theorem Keeps.endsWell {α : Type} {p : Parser Tape α} {s s' : ParserState Tape} {a : α}
    (h : Keeps p) (ended : s.source.EndsWell) (read : p s = .ok (a, s')) : s'.source.EndsWell := by
  have kept := h s s ⟨⟨rfl, ended⟩, rfl, rfl, rfl, rfl⟩
  rw [read] at kept
  cases kept with
  | ok related => exact related.2.source.2

section Statements

variable (features : FeatureSet) (final : Except ScanError Nat) (nesting : Nat)

/-- Failure of the parser blames a place up to which the tokens complete. -/
def Faults {α : Type} (p : Parser Tape α) (completes : List Token → List Token → Prop) : Prop :=
  ∀ ⦃ts : List Token⦄ ⦃names : Names⦄ ⦃depth : Nat⦄ ⦃e : CompileError⦄,
    (⟨ts, final⟩ : Tape).EndsWell → p (before ts final names nesting depth) = .error e →
      Blames (completes ts) ts final e

/-- The parser reads the phrase, or blames a place up to which the tokens complete to it. -/
structure Diagnoses (p : Parser Tape Node) (fits : Nat → Node → Prop) (phrase : Phrase) :
    Prop where
  sound : Sound features final nesting p fits phrase
  keeps : Keeps p
  faults : Faults final nesting p (Completes features phrase)

end Statements

variable {features : FeatureSet} {final : Except ScanError Nat} {nesting size : Nat}
  {expression operand : Parser Tape Node} {ts : List Token} {names : Names} {depth : Nat}
  {e : CompileError}

/-- A sequence fails in its first part, or behind what that part has read. -/
theorem Diagnoses.bind {α : Type} {p : Parser Tape Node} {f : Node → Parser Tape α}
    {fits : Nat → Node → Prop} {phrase : Phrase} {completes : List Token → Prop}
    (h : Diagnoses features final nesting p fits phrase) (proper : phrase ≠ .further)
    (ended : (⟨ts, final⟩ : Tape).EndsWell)
    (failed : (p >>= f) (before ts final names nesting depth) = .error e)
    (first : ∀ ws, Completes features phrase ts ws → completes ws)
    (next : ∀ us x rest, ts = us ++ rest → Consumed features phrase us x rest →
      (⟨rest, final⟩ : Tape).EndsWell →
      f (x.register features names).1
        (before rest final (x.register features names).2 nesting depth) = .error e →
      Blames completes ts final e) :
    Blames completes ts final e := by
  rcases bind_eq_error failed with stuck | ⟨a, s', read, failed⟩
  · exact (h.faults ended stuck).imp first
  · obtain ⟨x, rest, derived, -, rfl, rfl⟩ := h.sound read
    obtain ⟨us, split, consumed⟩ := derived.consumed proper
    exact next us x rest split consumed (h.keeps.endsWell ended read) failed

/-- A limit may stop the parser before it reads anything. -/
theorem Diagnoses.deeper {p : Nat → Parser Tape Node} {phrase : Phrase} {levels : Nat}
    (inner : ∀ left, levels = left + 1 →
      Diagnoses features final (nesting + 1) (p left)
        (fun depth x => x.Fits (nesting + 1) depth) phrase) :
    Diagnoses features final nesting (deeper p levels) (fun depth x => x.FitsWithin nesting depth)
      phrase where
  sound := .deeper fun left hleft => (inner left hleft).sound
  keeps := by
    cases levels with
    | zero => exact Simulates.refuse Tape.simulation_endsWell .nestingLimit
    | succ left => exact Simulates.nested Tape.simulation_endsWell (inner left rfl).keeps
  faults := by
    intro ts names depth e ended failed
    cases levels with
    | zero =>
      cases failed
      exact .limit (.inl rfl) (.here ended _)
    | succ left =>
      refine leads_blames leads_enter (fun _ => .enter ended) failed fun _ failed => ?_
      rcases bind_eq_error failed with stuck | ⟨a, s', -, failed⟩
      · exact (inner left rfl).faults ended stuck
      · cases failed

section Chains

variable {tier : Nat}

theorem chainFrom_blames
    (lower : Diagnoses features final nesting operand (fun depth x => x.Fits nesting depth)
      (.chain tier))
    {budget folds : Nat} {us : List Token} {l a : Node}
    (left : Consumed features (.chain (tier + 1)) us l ts) (ended : (⟨ts, final⟩ : Tape).EndsWell)
    (failed : chainFrom operand (BinaryOp.ofTier? (tier + 1)) budget a folds
      (before ts final names nesting depth) = .error e) :
    Blames (fun ws => Completes features (.chain (tier + 1)) (us ++ ts) (us ++ ws)) ts final e := by
  induction budget generalizing ts names depth us l a folds with
  | zero =>
    rw [chainFrom.eq_def, kind_before] at failed
    cases hop : BinaryOp.ofTier? (tier + 1) (kindOf ts) with
    | none =>
      rw [hop] at failed
      cases failed
    | some op =>
      rw [hop] at failed
      cases failed
      exact .limit (.inr rfl) (.here ended _)
  | succ budget ih =>
    rw [chainFrom.eq_def, kind_before] at failed
    cases hop : BinaryOp.ofTier? (tier + 1) (kindOf ts) with
    | none =>
      rw [hop] at failed
      cases failed
    | some op =>
      rw [hop] at failed
      obtain ⟨hkind, htier⟩ := ofTier?_eq_some hop
      have more : kindOf ts ≠ .eof := by
        intro stop
        rw [stop] at hkind
        cases hkind
      obtain ⟨operator, ts₁, rfl⟩ := Tape.exists_cons_of_kindOf more
      apply leads_blames leads_deepen (fun _ => .deepen ended) failed
      intro _ failed
      apply advance_blames (Completes.right left hkind htier (.nil ts₁ (chain_null · tier))) failed
      intro ended failed
      apply Blames.cons
      apply lower.bind Phrase.noConfusion ended failed fun ws h =>
        Completes.right left hkind htier h
      rintro us₁ r rest rfl right ended failed
      -- Operators fold to the left: what has been read is the left side of the next one.
      have both : Derives features (.chain (tier + 1)) (us ++ operator :: us₁ ++ rest)
          [.binary op l r] rest := by
        rw [List.append_assoc]
        exact .binary left.whole hkind htier right.whole
      have further := ih (both.consumes Phrase.noConfusion) ended failed
      simp only [List.append_assoc, List.cons_append] at further
      exact .append further

theorem diagnoses_binary
    (first : Diagnoses features final nesting operand (fun depth x => x.Fits nesting depth) .unary)
    (tier : Nat) :
    Diagnoses features final nesting (binary operand tier) (fun depth x => x.Fits nesting depth)
      (.chain tier) where
  sound := sound_binary first.sound tier
  keeps := Simulates.binary Tape.simulation_endsWell first.keeps tier
  faults := by
    induction tier with
    | zero =>
      intro ts names depth e ended failed
      exact (first.faults ended failed).imp fun ws h => h.wrap .operand
    | succ tier ih =>
      have lower : Diagnoses features final nesting (binary operand tier)
          (fun depth x => x.Fits nesting depth) (.chain tier) :=
        ⟨sound_binary first.sound tier,
          Simulates.binary Tape.simulation_endsWell first.keeps tier, ih⟩
      intro ts names depth e ended failed
      apply lower.bind nofun ended failed fun ws h => h.wrap .lift
      rintro us x rest rfl consumed ended failed
      have lifted := Derives.consumes (.lift consumed.whole) nofun
      exact .append (chainFrom_blames lower lifted ended failed)

end Chains

theorem diagnoses_ternary
    (first : Diagnoses features final nesting operand (fun depth x => x.Fits nesting depth) .unary)
    (branch : Diagnoses features final nesting expression
      (fun depth x => x.FitsWithin nesting depth) .expression) :
    Diagnoses features final nesting (ternary operand expression)
      (fun depth x => x.Fits nesting depth) .expression where
  sound := sound_ternary first.sound branch.sound
  keeps := Simulates.ternary Tape.simulation_endsWell branch.keeps first.keeps
  faults := by
    intro ts names depth e ended failed
    apply (diagnoses_binary first BinaryOp.tiers).bind nofun ended failed fun ws h =>
      h.wrap .condition
    rintro us c ts₁ rfl condition ended failed
    rw [kind_before] at failed
    split at failed
    · next hquestion =>
      obtain ⟨question, ts₁, rfl, hquestion⟩ := exists_cons_of_kind hquestion nofun
      apply Blames.append
      apply advance_blames (Completes.yes condition hquestion (.expression ts₁)) failed
      intro ended failed
      apply Blames.cons
      apply branch.bind nofun ended failed fun ws h => Completes.yes condition hquestion h
      rintro us₁ y ts₂ rfl yes ended failed
      apply Blames.append
      apply expect_blames (fun colon hcolon => Completes.yesClosed condition hquestion yes hcolon)
        nofun ended failed
      rintro colon ts₂ rfl hcolon ended failed
      apply Blames.cons
      apply branch.bind nofun ended failed fun ws h =>
        Completes.no condition hquestion yes hcolon h
      rintro us₂ n rest rfl no ended failed
      cases failed
    · cases failed

section Arguments

variable (branch : Diagnoses features final nesting expression
  (fun depth x => x.FitsWithin nesting depth) .expression)

include branch

theorem argumentsFrom_blames {budget : Nat} {done : List Node}
    (ended : (⟨ts, final⟩ : Tape).EndsWell)
    (failed : argumentsFrom expression budget done (before ts final names nesting depth) =
      .error e) :
    Blames (CompletesFurther features) ts final e := by
  induction budget generalizing ts names done with
  | zero => cases failed
  | succ budget ih =>
    rw [argumentsFrom, kind_before] at failed
    split at failed
    · next hcomma =>
      obtain ⟨comma, ts₁, rfl, hcomma⟩ := exists_cons_of_kind hcomma (by decide)
      apply advance_blames (CompletesFurther.next hcomma (.expression ts₁)) failed
      intro ended failed
      apply Blames.cons
      apply branch.bind (by decide) ended failed fun ws h => .next hcomma h
      rintro us x rest rfl next ended failed
      apply Blames.append
      exact (ih ended failed).imp fun ws h => .more hcomma next h
    · cases failed

theorem arguments_blames :
    Faults final nesting (arguments size expression) fun _ => CompletesArguments features := by
  intro ts names depth e ended failed
  apply expect_blames (fun opening hopening => CompletesArguments.opened hopening) nofun ended
    failed
  rintro opening ts₁ rfl hopening ended failed
  apply Blames.cons
  rw [kind_before] at failed
  split at failed
  · rw [bind_of_ok (pure_apply _ _)] at failed
    apply expect_blames (fun closing hclosing => CompletesArguments.none hopening hclosing) nofun
      ended failed
    rintro closing rest rfl hclosing ended failed
    cases failed
  · apply branch.bind nofun ended failed fun ws h => CompletesArguments.first hopening h
    rintro us x ts₂ rfl first ended failed
    rcases bind_eq_error failed with stuck | ⟨as, s', more, failed⟩
    · apply Blames.append
      exact (argumentsFrom_blames branch ended stuck).imp fun ws h =>
        .further hopening first h
    · have keeps (done : List Node) : Keeps (argumentsFrom expression size done) :=
        Simulates.argumentsFrom Tape.simulation_endsWell branch.keeps size done
      have ended := (keeps _).endsWell ended more
      obtain ⟨args, rest, further, -, rfl, rfl⟩ := sound_argumentsFrom branch.sound more
      obtain ⟨us₁, split, closed⟩ := CompletesArguments.closed hopening first.whole further
      rw [split]
      apply Blames.append
      dsimp only at failed
      apply expect_blames (fun closing hclosing => closed closing hclosing) nofun ended failed
      rintro closing rest rfl hclosing ended failed
      cases failed

theorem named_blames (hname : kindOf ts = .identifier) (ended : (⟨ts, final⟩ : Tape).EndsWell)
    (failed : named features size expression (before ts final names nesting depth) = .error e) :
    Blames (Completes features .unary ts) ts final e := by
  obtain ⟨name, ts₁, rfl, hname⟩ := exists_cons_of_kind hname nofun
  apply advance_blames (Completes.identifier hname) failed
  intro ended failed
  rcases bind_eq_error failed with stuck | ⟨qualifies, s', known, failed⟩
  · obtain ⟨se, rfl, rfl, colon, hcolon, rfl | ⟨function, hfunction, rfl⟩⟩ :=
      atQualifiedCall_eq_error stuck
    · exact .unscanned rfl (Completes.qualifier hname hcolon)
    · exact .unscanned rfl (Completes.qualifiedCall hname hcolon hfunction .nil)
  · obtain ⟨rfl, rfl⟩ := atQualifiedCall_eq_ok known
    by_cases qualified : QualifiesCall ts₁
    · rw [decide_eq_true qualified, if_pos rfl] at failed
      obtain ⟨hcolon, hfunction, -⟩ := qualified
      obtain ⟨colon, ts₂, rfl, hcolon⟩ := exists_cons_of_kind hcolon nofun
      change kindOf ts₂ = .identifier at hfunction
      obtain ⟨function, ts₃, rfl, hfunction⟩ := exists_cons_of_kind hfunction nofun
      apply Blames.cons
      apply advance_blames (Completes.qualifier hname hcolon) failed
      intro ended failed
      apply Blames.cons
      apply advance_blames (Completes.qualifiedCall hname hcolon hfunction .nil) failed
      intro ended failed
      apply Blames.cons
      rcases bind_eq_error failed with stuck | ⟨as, s', -, failed⟩
      · exact (arguments_blames branch ended stuck).imp fun ws h =>
          .qualifiedCall hname hcolon hfunction h
      · cases failed
    · rw [decide_eq_false qualified, if_neg Bool.false_ne_true, kind_before] at failed
      split at failed
      · next paren =>
        apply Blames.cons
        rcases bind_eq_error failed with stuck | ⟨as, s', -, failed⟩
        · exact (arguments_blames branch ended stuck).imp fun ws h => .call hname paren h
        · cases failed
      · cases failed

end Arguments

section Steps

variable (branch : Diagnoses features final nesting expression
  (fun depth x => x.FitsWithin nesting depth) .expression)

/-- Only a number with a point or an exponent can turn out to be none. -/
theorem kind_of_malformed {t : Token} {fault : ScanFault}
    (h : Literal.ofToken? t = some (.error fault)) : t.kind = .float := by
  obtain ⟨kind, image, position⟩ := t
  cases kind <;> first | rfl | cases h

/-- A token that begins no operand is of none of the kinds that do. -/
theorem not_mem_operandStart {t : Token} (unread : Literal.ofToken? t = none)
    (plain : UnaryOp.ofKind? t.kind = none) (name : t.kind ≠ .identifier)
    (paren : t.kind ≠ .leftParen) : t.kind ∉ Expectation.operandStart := by
  rw [Literal.ofToken?.eq_def] at unread
  have float : t.kind ≠ .float := by
    intro kind
    rw [kind] at unread
    simp only at unread
    split at unread <;> cases unread
  intro member
  simp only [Expectation.operandStart, List.mem_cons, List.not_mem_nil, or_false] at member
  rcases member with kind | kind | kind | kind | kind | kind | kind | kind | kind | kind | kind <;>
    rw [kind] at unread plain name paren float <;> contradiction

/-- Every token of these kinds begins an operand if it can be read. -/
theorem completes_operandStart (start : List Token) {t : Token}
    (member : t.kind ∈ Expectation.operandStart) (readable : t.IsReadable) :
    Completes features .unary start [t] := by
  cases hliteral : Literal.ofToken? t with
  | some result =>
    cases result with
    | ok value => exact .literal hliteral
    | error fault => exact absurd hliteral (readable fault)
  | none =>
    by_cases name : t.kind = .identifier
    · exact .identifier name
    · by_cases paren : t.kind = .leftParen
      · exact .bracket paren (.expression [])
      · cases hop : UnaryOp.ofKind? t.kind with
        | some op => exact .unary hop (.nil [] fun rest => .value (.primary (derives_null rest)))
        | none => exact absurd member (not_mem_operandStart hliteral hop name paren)

include branch

theorem primary_blames (plain : UnaryOp.ofKind? (kindOf ts) = none)
    (ended : (⟨ts, final⟩ : Tape).EndsWell)
    (failed : primary features size expression (before ts final names nesting depth) = .error e) :
    Blames (Completes features .unary ts) ts final e := by
  by_cases hname : kindOf ts = .identifier
  · rw [primary, kind_before, hname] at failed
    exact named_blames branch hname ended failed
  · by_cases hopening : kindOf ts = .leftParen
    · rw [primary, kind_before, hopening] at failed
      obtain ⟨opening, ts₁, rfl, hopening⟩ := exists_cons_of_kind hopening (by decide)
      apply advance_blames (Completes.bracket hopening (.expression ts₁)) failed
      intro ended failed
      apply Blames.cons
      apply branch.bind (by decide) ended failed fun ws h => Completes.bracket hopening h
      rintro us x ts₂ rfl inner ended failed
      apply Blames.append
      apply expect_blames (fun closing hclosing => Completes.bracketed hopening hclosing inner)
        (by decide) ended failed
      rintro closing rest rfl hclosing ended failed
      cases failed
    · rw [primary_of_ne hname hopening, literal_apply] at failed
      split at failed
      · next unread =>
        cases failed
        have kind := Tape.kind_current ts final
        rw [← kind] at plain hname hopening
        refine .here ended ?_ fun t member readable => completes_operandStart ts member readable
        rw [← kind]
        exact not_mem_operandStart unread plain hname hopening
      · next fault unreadable =>
        cases failed
        have kind := kind_of_malformed unreadable
        rw [before, Tape.kind_current] at kind
        have more : kindOf ts ≠ .eof := by
          rw [kind]
          decide
        obtain ⟨t, rest, rfl⟩ := Tape.exists_cons_of_kindOf more
        exact .malformed (List.mem_cons_self ..) unreadable
      · next value hvalue =>
        have more : kindOf ts ≠ .eof := by
          have kind := (kind_of_literal hvalue).2.2.2.2
          rwa [before, Tape.kind_current] at kind
        obtain ⟨t, rest, rfl⟩ := Tape.exists_cons_of_kindOf more
        apply advance_blames (Completes.literal hvalue) failed
        intro ended failed
        cases failed

theorem accessKey_blames {us : List Token} {base : Node}
    (value : Consumed features .value us base ts) (ended : (⟨ts, final⟩ : Tape).EndsWell)
    (failed : accessKey? expression (before ts final names nesting depth) = .error e) :
    Blames (fun ws => Completes features .unary (us ++ ts) (us ++ ws)) ts final e := by
  by_cases hdot : kindOf ts = .dot
  · rw [accessKey?, kind_before, hdot] at failed
    obtain ⟨dot, ts₁, rfl, hdot⟩ := exists_cons_of_kind hdot (by decide)
    have named (name : Token) (hname : name.kind = .identifier) :
        Completes features .unary (us ++ dot :: ts₁) (us ++ [dot, name]) :=
      Completes.property value hdot hname
    have pointed : Completes features .unary (us ++ dot :: ts₁) (us ++ [dot]) :=
      (named ⟨.identifier, "a", 0⟩ rfl).begins (prefix_append (List.prefix_append [dot] _) us)
    apply advance_blames pointed failed
    intro ended failed
    apply Blames.cons
    apply expect_blames (fun name hname => named name hname) (by decide) ended failed
    rintro name rest rfl hname ended failed
    cases failed
  · by_cases hopening : kindOf ts = .leftBracket
    · rw [accessKey?, kind_before, hopening] at failed
      obtain ⟨opening, ts₁, rfl, hopening⟩ := exists_cons_of_kind hopening (by decide)
      apply advance_blames (Completes.item value hopening (.expression ts₁)) failed
      intro ended failed
      apply Blames.cons
      apply branch.bind (by decide) ended failed fun ws h => Completes.item value hopening h
      rintro us₁ key ts₂ rfl key ended failed
      apply Blames.append
      apply expect_blames (fun closing hclosing =>
        Completes.itemClosed value hopening key hclosing) (by decide) ended failed
      rintro closing rest rfl hclosing ended failed
      cases failed
    · cases (accessKey?_of_ne hdot hopening).symm.trans failed

theorem invocation_blames {us : List Token} {target a : Node}
    (value : Consumed features .value us target ts) (access : target.isAccess)
    (ended : (⟨ts, final⟩ : Tape).EndsWell)
    (failed : invocation features size expression a (before ts final names nesting depth) =
      .error e) :
    Blames (fun ws => Completes features .unary (us ++ ts) (us ++ ws)) ts final e := by
  rw [invocation, kind_before] at failed
  split at failed
  · next enabled =>
    rcases bind_eq_error failed with stuck | ⟨as, s', -, failed⟩
    · exact (arguments_blames branch ended stuck).imp fun ws h =>
        .method value access enabled.1 enabled.2 h
    · cases failed
  · cases failed

theorem stepsFrom_blames {budget steps : Nat} {start : List Token} {base : Node}
    (derived : Derives features .value start [base] ts) (fits : base.Fits nesting depth)
    (hsteps : base.steps = steps) (ended : (⟨ts, final⟩ : Tape).EndsWell)
    (failed : stepsFrom features size expression budget (base.register features names).1 steps
      (before ts final (base.register features names).2 nesting (depth + steps)) = .error e) :
    Blames (Completes features .unary start) start final e := by
  subst hsteps
  have keeps : Keeps (accessKey? expression) :=
    Simulates.accessKey? Tape.simulation_endsWell branch.keeps
  induction budget generalizing ts base with
  | zero =>
    rw [stepsFrom.eq_def] at failed
    rcases bind_eq_error failed with stuck | ⟨key?, s₁, read, failed⟩
    · obtain ⟨us, rfl, value⟩ := derived.consumed (by decide)
      exact .append (accessKey_blames branch value ended stuck)
    · cases key? with
      | none => cases failed
      | some key =>
        have ended := keeps.endsWell ended read
        obtain ⟨x, ts₁, accessed, -, -, -, -, rfl⟩ := sound_accessKey branch.sound derived fits read
        obtain ⟨us, rfl⟩ := accessed.suffix
        cases failed
        exact .limit (.inr rfl) ((StopsOn.here ended _).append us)
  | succ budget ih =>
    rw [stepsFrom.eq_def] at failed
    rcases bind_eq_error failed with stuck | ⟨key?, s₁, read, failed⟩
    · obtain ⟨us, rfl, value⟩ := derived.consumed (by decide)
      exact .append (accessKey_blames branch value ended stuck)
    · cases key? with
      | none => cases failed
      | some key =>
        have ended := keeps.endsWell ended read
        obtain ⟨x, ts₁, accessed, access, counted, within, same, rfl⟩ :=
          sound_accessKey branch.sound derived fits read
        change (⟨ts₁, final⟩ : Tape).EndsWell at ended
        obtain ⟨us, split⟩ := accessed.suffix
        apply leads_blames leads_deepen
          (fun _ stuck => split ▸ (StopsOn.deepen ended stuck).append us) failed
        intro room failed
        rcases bind_eq_error failed with stuck | ⟨b, s₂, invoked, failed⟩
        · obtain ⟨us, rfl, value⟩ := accessed.consumed (by decide)
          exact .append (invocation_blames branch value access ended stuck)
        · have keeps : Keeps (invocation features size expression
              (key.access (base.register features names).1)) :=
            Simulates.invocation Tape.simulation_endsWell branch.keeps features size _
          have ended := keeps.endsWell ended invoked
          rw [same, Nat.add_assoc, ← counted] at invoked
          obtain ⟨y, ts₂, value, fitsValue, steps, rfl, rfl⟩ :=
            sound_invocation branch.sound accessed access (within room) invoked
          rw [← counted, ← steps] at failed
          exact ih value fitsValue ended failed

theorem value_blames (plain : UnaryOp.ofKind? (kindOf ts) = none)
    (ended : (⟨ts, final⟩ : Tape).EndsWell)
    (failed : value features size expression (before ts final names nesting depth) = .error e) :
    Blames (Completes features .unary ts) ts final e := by
  rcases bind_eq_error failed with stuck | ⟨b, s₁, first, failed⟩
  · exact primary_blames branch plain ended stuck
  · have keeps : Keeps (primary features size expression) :=
      Simulates.primary Tape.simulation_endsWell branch.keeps features size
    have ended := keeps.endsWell ended first
    obtain ⟨x, ts₁, derived, fits, rfl, rfl⟩ := sound_primary branch.sound first
    exact stepsFrom_blames branch (.primary derived) fits derived.steps_primary ended failed

theorem diagnoses_unary {inner : Parser Tape Node}
    (operand : Diagnoses features final nesting inner (fun depth x => x.FitsWithin nesting depth)
      .unary) :
    Diagnoses features final nesting (unary inner (value features size expression))
      (fun depth x => x.Fits nesting depth) .unary where
  sound := sound_unary operand.sound (sound_value branch.sound)
  keeps := Simulates.unary Tape.simulation_endsWell operand.keeps
    (Simulates.value Tape.simulation_endsWell branch.keeps features size)
  faults := by
    intro ts names depth e ended failed
    rw [unary, kind_before] at failed
    cases hop : UnaryOp.ofKind? (kindOf ts) with
    | some op =>
      rw [hop] at failed
      obtain ⟨operator, ts₁, rfl⟩ := Tape.exists_cons_of_kindOf (opensWith_of_unary hop).2
      have missing : Completes features .unary ts₁ [] :=
        .nil ts₁ fun rest => .value (.primary (derives_null rest))
      apply advance_blames (missing.unary hop) failed
      intro ended failed
      apply Blames.cons
      apply operand.bind (by decide) ended failed fun ws h => h.unary hop
      rintro us x rest rfl derived ended failed
      cases failed
    | none =>
      rw [hop] at failed
      exact value_blames branch hop ended failed

end Steps

/-- With any number of levels left, expressions and operands blame the right place. -/
theorem diagnoses_level (levels : Nat) :
    ∀ nesting, Diagnoses features final nesting (level features size levels).expression
        (fun depth x => x.FitsWithin nesting depth) .expression ∧
      Diagnoses features final nesting (level features size levels).operand
        (fun depth x => x.Fits nesting depth) .unary := by
  induction levels with
  | zero =>
    intro nesting
    have expression : Diagnoses features final nesting (level features size 0).expression
        (fun depth x => x.FitsWithin nesting depth) .expression := by
      rw [level_expression]
      exact .deeper nofun
    refine ⟨expression, ?_⟩
    rw [level_operand]
    exact diagnoses_unary expression (.deeper nofun)
  | succ levels ih =>
    intro nesting
    have expression : Diagnoses features final nesting (level features size (levels + 1)).expression
        (fun depth x => x.FitsWithin nesting depth) .expression := by
      rw [level_expression]
      apply Diagnoses.deeper
      intro left hleft
      cases hleft
      exact diagnoses_ternary (ih (nesting + 1)).2 (ih (nesting + 1)).1
    refine ⟨expression, ?_⟩
    rw [level_operand]
    refine diagnoses_unary expression (.deeper fun left hleft => ?_)
    cases hleft
    exact (ih (nesting + 1)).2

end Grammar

end ElTemplate
