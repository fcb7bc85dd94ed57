import ElTemplate.Proofs.Grammar.Boundaries
import ElTemplate.Proofs.Parser.Lookahead
import ElTemplate.Proofs.Parser.Script

/-!
# The counts of a parser are balanced

A parser counts the levels that are open, and gives them back when it is done. Each script of the
grammar is sound: its steps never take back more than is there, stay within the limits, and never
move past the end of the source; and it leaves both counts as they were. What a chain has counted so
far stays open while its operands are read, so a script is sound for a number of such levels.
-/

namespace ElTemplate

namespace Reader

/-- The current token and the next one, which has been looked at, are not the end. -/
structure Qualifies (r : Reader) : Prop where
  colon : r.current.kind ≠ .eof
  name : ∃ t ts, r.queue = t :: ts ∧ t.kind ≠ .eof

end Reader

namespace ParserState

/-- The state inside of so many levels, with at least so many more that chains have counted. -/
structure Counts {σ : Type} (levels chain : Nat) (s : ParserState σ) : Prop where
  nesting : s.nesting = levels
  within : levels ≤ maxNesting
  above : levels + chain ≤ s.depth
  bounded : s.depth ≤ maxDepth

theorem Counts.weaken {σ : Type} {levels chain : Nat} {s : ParserState σ}
    (h : s.Counts levels chain) : s.Counts levels 0 :=
  { h with above := Nat.le_of_add_right_le h.above }

theorem Counts.room {σ : Type} {levels chain : Nat} {s : ParserState σ}
    (h : s.Counts levels chain) : chain ≤ s.depth :=
  Nat.le_of_add_left_le h.above

theorem Counts.enter {σ : Type} [TokenSource σ] {levels : Nat} {s s' : ParserState σ} {u : Unit}
    (h : s.Counts levels 0) (ok : Parser.enter s = .ok (u, s')) : s'.Counts (levels + 1) 0 := by
  obtain ⟨room, deep, rfl⟩ := Parser.enter_eq_ok ok
  exact ⟨congrArg (· + 1) h.nesting, h.nesting ▸ room, Nat.succ_le_succ h.above, deep⟩

end ParserState

namespace Parser

section Qualified

variable {s s' : ParserState Reader}

/-- A call is qualified by tokens that have been found. -/
theorem qualifies_of_atQualifiedCall {qualified : Bool}
    (h : atQualifiedCall s = .ok (qualified, s')) (yes : qualified = true) :
    s'.source.Qualifies := by
  subst yes
  obtain ⟨here, _, look, h⟩ := bind_eq_ok h
  cases look
  split at h
  · next colon =>
    obtain ⟨next, s₁, first, h⟩ := bind_eq_ok h
    split at h
    · next name =>
      obtain ⟨last, s₂, second, h⟩ := bind_eq_ok h
      obtain rfl : s' = s₂ := (Prod.mk.inj (Except.ok.inj h)).2.symm
      obtain ⟨filled, t, found, kind⟩ := Reader.ahead_eq_ok (ahead_apply_eq_ok first).1
      obtain ⟨filled', -⟩ := Reader.ahead_eq_ok (ahead_apply_eq_ok second).1
      obtain ⟨current, -⟩ := Reader.fill_eq_ok filled
      obtain ⟨current', more, queue, -⟩ := Reader.fill_eq_ok filled'
      obtain ⟨ts, waiting⟩ := List.head?_eq_some_iff.mp (List.head?_eq_getElem?.trans found)
      refine ⟨?_, t, ts ++ more, ?_, ?_⟩
      · have same : s'.source.current.kind = .colon := by
          rw [current', current]
          exact colon
        rw [same]
        nofun
      · rw [queue, waiting, List.cons_append]
      · rw [kind, name]
        nofun
    · cases h
  · cases h

theorem next_of_qualifies {t : Token} (here : s.source.Qualifies) (h : advance s = .ok (t, s')) :
    s'.source.current.kind ≠ .eof := by
  obtain ⟨next, ts, queue, proper⟩ := here.name
  have moved := (advance_apply_eq_ok h).1
  simp only [TokenSource.advance, Reader.advance, queue] at moved
  rw [← Except.ok.inj moved]
  exact proper

end Qualified

/-- The step takes nothing back and does not move on. -/
def Action.isPlain : Action → Bool
  | leave | release _ | advance => false
  | _ => true

/-- What holds of every step of a run. -/
structure Event.Sound (e : Event Reader) : Prop where
  counts : e.state.Counts e.levels 0
  leaves : e.action = .leave → 0 < e.levels
  releases : ∀ levels, e.action = .release levels → levels ≤ e.state.depth
  proper : e.action = .advance → e.state.source.current.kind ≠ .eof

namespace Script

variable {α β : Type}

/-- From such a reader on, and with so many levels counted by chains, the steps of the script are
sound; at its end the chains have counted the second number of levels instead. -/
structure Sound {p : Parser Reader α} (pre : Reader → Prop) (chain chain' : Nat)
    (script : Script p) : Prop where
  steps : ∀ levels s, pre s.source → s.Counts levels chain →
    ∀ e ∈ script.trace levels s, e.Sound
  gives : ∀ s a s', pre s.source → chain ≤ s.depth → p s = .ok (a, s') →
    s'.nesting = s.nesting ∧ s'.depth + chain = s.depth + chain' ∧
      (s.depth ≤ maxDepth → s'.depth ≤ maxDepth)

/-- The script is sound wherever it begins, and leaves the counts as they were. -/
abbrev Steady {p : Parser Reader α} (script : Script p) : Prop :=
  script.Sound (fun _ => True) 0 0

variable {p q : Parser Reader α} {f : α → Parser Reader β} {script : Script p}
  {pre after : Reader → Prop} {chain chain' chain'' : Nat} {levels : Nat}
  {s s' : ParserState Reader}

/-- What a steady script does is no matter of where it stands. -/
theorem Steady.sound (h : script.Steady) : script.Sound pre chain chain where
  steps levels s _ counts := h.steps levels s trivial counts.weaken
  gives s a s' _ _ ok := by
    obtain ⟨nesting, depth, bounded⟩ := h.gives s a s' trivial (Nat.zero_le _) ok
    exact ⟨nesting, congrArg (· + chain) depth, bounded⟩

theorem sound_event {action : Action} (counts : s.Counts levels chain)
    (plain : action.isPlain) : Event.Sound ⟨levels, action, s⟩ where
  counts := counts.weaken
  leaves := by
    rintro rfl
    cases plain
  releases := by
    rintro count rfl
    cases plain
  proper := by
    rintro rfl
    cases plain

theorem sound_of_step {action : Action} (performs : Performs action p)
    (sound : ∀ levels s, pre s.source → s.Counts levels chain → Event.Sound ⟨levels, action, s⟩)
    (levels : Nat) (s : ParserState Reader) (here : pre s.source) (counts : s.Counts levels chain) :
    ∀ e ∈ (Script.step action performs).trace levels s, e.Sound := by
  rw [trace_step]
  exact List.forall_mem_singleton.mpr (sound levels s here counts)

namespace Sound

theorem counts {a : α} (h : script.Sound pre chain chain') (here : pre s.source)
    (counts : s.Counts levels chain) (ok : p s = .ok (a, s')) : s'.Counts levels chain' := by
  obtain ⟨nesting, depth, bounded⟩ := h.gives s a s' here counts.room ok
  have above := counts.above
  exact ⟨nesting.trans counts.nesting, counts.within, by omega, bounded counts.bounded⟩

theorem pure (a : α) :
    (Script.pure a : Script (Pure.pure a : Parser Reader α)).Sound pre chain chain where
  steps _ _ _ _ := by
    rw [trace_pure]
    exact List.forall_mem_nil _
  gives s a s' _ _ ok := by
    cases ok
    exact ⟨rfl, rfl, id⟩

/-- A step without a result. -/
theorem failing {action : Action} (performs : Performs action p) (plain : action.isPlain)
    (fails : ∀ s a s', p s ≠ .ok (a, s')) :
    (Script.step action performs).Sound pre chain chain' where
  steps := sound_of_step performs fun _ _ _ counts => sound_event counts plain
  gives s a s' _ _ ok := absurd ok (fails s a s')

theorem refuse (expected : Expectation) :
    (Script.refuse expected : Script (Parser.refuse expected : Parser Reader α)).Sound pre chain
      chain' :=
  failing _ rfl fun _ _ _ => nofun

/-- A step that touches neither count. -/
theorem step {action : Action} (performs : Performs action p) (plain : action.isPlain)
    (keeps : ∀ s a s', p s = .ok (a, s') → s'.nesting = s.nesting ∧ s'.depth = s.depth) :
    (Script.step action performs).Sound pre chain chain where
  steps := sound_of_step performs fun _ _ _ counts => sound_event counts plain
  gives s a s' _ _ ok := by
    obtain ⟨nesting, depth⟩ := keeps s a s' ok
    exact ⟨nesting, congrArg (· + chain) depth, fun bounded => depth ▸ bounded⟩

theorem register (performs : Performs .register p) :
    (Script.step .register performs).Sound pre chain chain := by
  refine step performs rfl fun s a s' ok => ?_
  cases performs <;> cases ok <;> exact ⟨rfl, rfl⟩

/-- Chains go on from where the first script leaves them, at a reader that it leads to. -/
theorem andThen {next : ∀ a, Script (f a)} (after : α → Reader → Prop)
    (first : script.Sound pre chain chain')
    (leads : ∀ s a s', pre s.source → p s = .ok (a, s') → after a s'.source)
    (rest : ∀ a, (next a).Sound (after a) chain' chain'') :
    (Script.bind script next).Sound pre chain chain'' where
  steps levels s here counts := by
    rw [trace_bind, List.forall_mem_append]
    refine ⟨first.steps levels s here counts, ?_⟩
    cases read : p s with
    | error e => exact List.forall_mem_nil _
    | ok result =>
      obtain ⟨a, s'⟩ := result
      exact (rest a).steps levels s' (leads s a s' here read) (first.counts here counts read)
  gives s b s'' here room ok := by
    obtain ⟨a, s', read, ok⟩ := bind_eq_ok ok
    obtain ⟨nesting, depth, bounded⟩ := first.gives s a s' here room read
    have room' : chain' ≤ s'.depth := by omega
    obtain ⟨nesting', depth', bounded'⟩ :=
      (rest a).gives s' b s'' (leads s a s' here read) room' ok
    exact ⟨nesting'.trans nesting, by omega, bounded' ∘ bounded⟩

theorem bind {next : ∀ a, Script (f a)} (first : script.Sound pre chain chain')
    (rest : ∀ a, (next a).Sound (fun _ => True) chain' chain'') :
    (Script.bind script next).Sound pre chain chain'' :=
  first.andThen _ (fun _ _ _ _ _ => trivial) rest

/-- After a look the kind of the current token is known. -/
theorem look {f : Token.Kind → Parser Reader β} {next : ∀ k, Script (f k)}
    (rest : ∀ k, (next k).Sound (fun r => r.current.kind = k) chain chain') :
    (Script.bind Script.look next).Sound pre chain chain' := by
  refine andThen (fun k r => r.current.kind = k) ?_ ?_ rest
  · refine step _ rfl fun s k s' ok => ?_
    cases ok
    exact ⟨rfl, rfl⟩
  · intro s k s' _ ok
    cases ok
    rfl

/-- A token that is not the end is moved past. -/
theorem move (proper : ∀ r, pre r → r.current.kind ≠ .eof) :
    Script.move.Sound pre chain chain where
  steps := sound_of_step .advance fun _ _ here counts =>
    ⟨counts.weaken, nofun, nofun, fun _ => proper _ here⟩
  gives s a s' _ _ ok := by
    obtain ⟨-, -, same⟩ := advance_apply_eq_ok ok
    rw [same]
    exact ⟨rfl, rfl, id⟩

theorem moveKind {k : Token.Kind} (proper : k ≠ .eof) :
    Script.move.Sound (fun r => r.current.kind = k) chain chain :=
  move fun _ here => here ▸ proper

/-- One more level is counted, at the same token. -/
theorem deepen : (Script.step _ .deepen).Sound pre chain (chain + 1) where
  steps := sound_of_step .deepen fun _ _ _ counts => sound_event counts rfl
  gives s a s' _ _ ok := by
    obtain ⟨deep, rfl⟩ := deepen_eq_ok ok
    exact ⟨rfl, Nat.add_right_comm .., fun _ => deep⟩

/-- What chains have counted is given back. -/
theorem release : (Script.step _ (.release chain)).Sound pre chain 0 where
  steps := sound_of_step (.release chain) fun levels s _ counts => by
    refine ⟨counts.weaken, nofun, fun count same => ?_, nofun⟩
    cases same
    exact counts.room
  gives s a s' _ room ok := by
    cases ok
    exact ⟨rfl, Nat.sub_add_cancel room, Nat.le_trans (Nat.sub_le _ _)⟩

theorem choice {c : Prop} [Decidable c] {yes : Script p} {no : Script q}
    (hyes : c → yes.Sound pre chain chain') (hno : ¬ c → no.Sound pre chain chain') :
    (Script.choice c yes no).Sound pre chain chain' := by
  constructor
  · intro levels s here counts
    rw [trace_choice]
    split
    · next holds => exact (hyes holds).steps levels s here counts
    · next fails => exact (hno fails).steps levels s here counts
  · intro s a s' here room ok
    split at ok
    · next holds => exact (hyes holds).gives s a s' here room ok
    · next fails => exact (hno fails).gives s a s' here room ok

theorem call (construct : Construct) (h : script.Sound pre chain chain') :
    (Script.call construct script).Sound pre chain chain' where
  steps levels s here counts := by
    rw [trace_call, List.forall_mem_cons]
    exact ⟨sound_event counts rfl, h.steps levels s here counts⟩
  gives := h.gives

theorem same (eq : p = q) (h : script.Sound pre chain chain') :
    (Script.same eq script).Sound pre chain chain' where
  steps levels s here counts := by
    rw [trace_same]
    exact h.steps levels s here counts
  gives := eq ▸ h.gives

end Sound

theorem steady_expect {expected : Token.Kind} (proper : expected ≠ .eof) :
    (expect expected : Script (Parser.expect expected : Parser Reader Token)).Steady :=
  .look fun _ => .choice (fun same => .moveKind (same ▸ proper)) fun _ => .refuse _

/-- One level further in, both counts are one more, and are given back together. -/
theorem steady_nested (inner : script.Steady) : (nested script).Steady where
  steps levels s _ counts := by
    -- The parser's type hides that it is a sequence, so the trace is opened by its value.
    rw [show (nested script).trace levels s = _ from trace_bind _ _, trace_step,
      List.singleton_append, List.forall_mem_cons]
    refine ⟨sound_event counts rfl, ?_⟩
    cases entered : enter s with
    | error e => exact List.forall_mem_nil _
    | ok result =>
      obtain ⟨u, s₁⟩ := result
      have counts₁ := counts.enter entered
      dsimp only
      rw [trace_inside, trace_bind, List.forall_mem_append]
      refine ⟨inner.steps _ _ trivial counts₁, ?_⟩
      cases read : p s₁ with
      | error e => exact List.forall_mem_nil _
      | ok result =>
        obtain ⟨a, s₂⟩ := result
        have counts₂ := inner.counts trivial counts₁ read
        dsimp only
        rw [trace_bind, trace_step, List.singleton_append, List.forall_mem_cons]
        exact ⟨⟨counts₂, fun _ => Nat.succ_pos _, nofun, nofun⟩, List.forall_mem_nil _⟩
  gives s a s' _ _ ok := by
    obtain ⟨u, s₁, entered, ok⟩ := bind_eq_ok ok
    obtain ⟨-, deep, rfl⟩ := enter_eq_ok entered
    obtain ⟨b, s₂, read, ok⟩ := bind_eq_ok ok
    obtain ⟨nesting, depth, bounded⟩ := inner.gives _ b s₂ trivial (Nat.zero_le _) read
    cases ok
    dsimp only [Nat.add_zero] at nesting depth bounded ⊢
    exact ⟨by omega, by omega, fun _ => by omega⟩

section Grammar

variable {operand expression : Parser Reader Node} {inner : Script expression}
  {first : Script operand}

/-- What a chain has counted is open while its operands are read, and given back at its end. -/
theorem sound_chainFrom (steady : first.Steady) {operator? : Token.Kind → Option BinaryOp}
    (proper : operator? .eof = none) (budget : Nat) (left : Node) (folds : Nat) :
    (chainFrom first operator? budget left folds).Sound (fun _ => True) folds 0 := by
  induction budget generalizing left folds with
  | zero =>
    refine .same _ (.look fun k => ?_)
    cases operator? k with
    | none => exact .bind .release fun _ => .pure left
    | some op => exact .refuse .depthLimit
  | succ budget ih =>
    refine .same _ (.look fun k => ?_)
    cases found : operator? k with
    | none => exact .bind .release fun _ => .pure left
    | some op =>
      have here : k ≠ .eof := by
        rintro rfl
        cases found.symm.trans proper
      -- The level is counted before the operator is moved past.
      refine .andThen (fun _ r => r.current.kind = k) .deepen ?_ fun _ =>
        .bind (.moveKind here) fun _ => .bind steady.sound fun right =>
          ih (.binary op left right) (folds + 1)
      intro s u s' same ok
      obtain ⟨-, rfl⟩ := deepen_eq_ok ok
      exact same

theorem steady_binary (steady : first.Steady) (tier : Nat) : (binary first tier).Steady := by
  induction tier with
  | zero => exact steady
  | succ tier ih => exact .call _ (.bind ih fun left => sound_chainFrom ih rfl maxDepth left 0)

theorem steady_ternary (steady : first.Steady) (further : inner.Steady) :
    (ternary first inner).Steady := by
  refine .call _ (.bind (steady_binary steady _) fun condition => .look fun k => ?_)
  refine .choice (fun question => ?_) fun _ => .pure condition
  exact .bind (.moveKind (question ▸ nofun)) fun _ => .bind further fun yes =>
    .bind (steady_expect nofun) fun _ => .bind further fun no => .pure _

theorem steady_unary {value : Parser Reader Node} {other : Script value} (steady : inner.Steady)
    (value : other.Steady) : (unary inner other).Steady := by
  refine .call _ (.look fun k => ?_)
  cases found : UnaryOp.ofKind? k with
  | none => exact value.sound
  | some op =>
    have here : k ≠ .eof := by
      rintro rfl
      cases found
    exact .bind (.moveKind here) fun _ => .bind steady fun x => .pure _

theorem steady_argumentsFrom (steady : inner.Steady) (budget : Nat) (done : List Node) :
    (argumentsFrom inner budget done).Steady := by
  induction budget generalizing done with
  | zero => exact .pure _
  | succ budget ih =>
    refine .look fun k => .choice (fun comma => ?_) fun _ => .pure _
    exact .bind (.moveKind (comma ▸ nofun)) fun _ => .bind steady fun argument => ih _

theorem steady_arguments (size : Nat) (steady : inner.Steady) :
    (arguments size inner).Steady := by
  refine .call _ (.bind (steady_expect nofun) fun _ => .look fun k => ?_)
  refine .choice (fun _ => ?_) fun _ => ?_
  · exact .bind (.pure []) fun done => .bind (steady_expect nofun) fun _ => .pure done
  · exact .bind steady.sound fun argument =>
      .bind (steady_argumentsFrom steady size [argument]) fun done =>
        .bind (steady_expect nofun) fun _ => .pure done

theorem steady_ahead {index : Nat} (near : index < 2) :
    (Script.step _ (.ahead near) : Script (ahead index : Parser Reader Token.Kind)).Steady :=
  .step _ rfl fun s k s' ok => by
    rw [(ahead_apply_eq_ok ok).2]
    exact ⟨rfl, rfl⟩

theorem steady_atQualifiedCall :
    (atQualifiedCall : Script (Parser.atQualifiedCall : Parser Reader Bool)).Steady :=
  .look fun _ => .choice
    (fun _ => .bind (steady_ahead Nat.zero_lt_two).sound fun _ => .choice
      (fun _ => .bind (steady_ahead Nat.one_lt_two) fun _ => .pure _) fun _ => .pure _)
    fun _ => .pure _

/-- The two tokens that qualify a call are moved past only when they have been found. -/
theorem steady_named (features : FeatureSet) (size : Nat) (steady : inner.Steady) :
    (named features size inner).Sound (fun r => r.current.kind = .identifier) 0 0 := by
  refine .bind (.moveKind nofun) fun name => ?_
  refine .andThen (fun qualified r => qualified = true → r.Qualifies) steady_atQualifiedCall
    (fun s b s' _ ok => qualifies_of_atQualifiedCall ok) fun qualified => ?_
  refine .choice (fun found => ?_) fun _ => .look fun k => ?_
  · refine .andThen (fun _ r => r.current.kind ≠ .eof) (.move fun r here => (here found).colon)
      (fun s t s' here ok => next_of_qualifies (here found) ok) fun _ => ?_
    exact .bind (.move fun _ here => here) fun last =>
      .bind (steady_arguments size steady) fun args => .register _
  · exact .choice
      (fun _ => .bind (steady_arguments size steady).sound fun args => .register _)
      fun _ => .register _

theorem steady_literal : (literal : Script (Parser.literal : Parser Reader Node)).Steady := by
  refine .andThen (fun s r => r = s.source) (.step _ rfl fun s x s' ok => ?_)
    (fun s x s' _ ok => ?_) fun s => ?_
  · cases ok
    exact ⟨rfl, rfl⟩
  · cases ok
    rfl
  · dsimp only
    cases found : Literal.ofToken? (TokenSource.current s.source) with
    | none => exact .refuse _
    | some result =>
      cases result with
      | error fault => exact .failing _ rfl fun _ _ _ => nofun
      | ok value =>
        obtain ⟨-, -, -, -, proper⟩ := Grammar.kind_of_literal found
        exact .bind (.move fun r here => here ▸ proper) fun _ => .pure _

theorem steady_primary (features : FeatureSet) (size : Nat) (steady : inner.Steady) :
    (primary features size inner).Steady := by
  refine .call _ (.look fun k => ?_)
  cases k
  case identifier => exact steady_named features size steady
  case leftParen =>
    exact .bind (.moveKind nofun) fun _ => .bind steady fun x =>
      .bind (steady_expect nofun) fun _ => .pure _
  all_goals exact steady_literal.sound

theorem steady_accessKey? (steady : inner.Steady) : (accessKey? inner).Steady := by
  refine .look fun k => ?_
  cases k
  case dot =>
    exact .bind (.moveKind nofun) fun _ => .bind (steady_expect nofun) fun name => .pure _
  case leftBracket =>
    exact .bind (.moveKind nofun) fun _ => .bind steady fun key =>
      .bind (steady_expect nofun) fun _ => .pure _
  all_goals exact .pure _

theorem steady_invocation (features : FeatureSet) (size : Nat) (steady : inner.Steady)
    (target : Node) : (invocation features size inner target).Steady :=
  .look fun _ => .choice
    (fun _ => .bind (steady_arguments size steady).sound fun _ => .pure _) fun _ => .pure _

/-- What access steps have counted is given back at their end. -/
theorem sound_stepsFrom (features : FeatureSet) (size : Nat) (steady : inner.Steady)
    (budget : Nat) (base : Node) (steps : Nat) :
    (stepsFrom features size inner budget base steps).Sound (fun _ => True) steps 0 := by
  induction budget generalizing base steps with
  | zero =>
    refine .same _ (.bind (steady_accessKey? steady).sound fun key => ?_)
    cases key with
    | none => exact .bind .release fun _ => .pure base
    | some key => exact .refuse .depthLimit
  | succ budget ih =>
    refine .same _ (.bind (steady_accessKey? steady).sound fun key => ?_)
    cases key with
    | none => exact .bind .release fun _ => .pure base
    | some key =>
      exact .bind .deepen fun _ =>
        .bind (steady_invocation features size steady (key.access base)).sound fun x =>
          ih x (steps + 1)

theorem steady_value (features : FeatureSet) (size : Nat) (steady : inner.Steady) :
    (value features size inner).Steady :=
  .call _ (.bind (steady_primary features size steady) fun base =>
    sound_stepsFrom features size steady maxDepth base 0)

end Grammar

/-- The scripts of a level are steady, however many levels are left. -/
theorem steady_level (features : FeatureSet) (size levels : Nat) :
    ((level features size levels).expression :
        Script (Parser.level features size levels : Level Reader).expression).Steady ∧
      ((level features size levels).operand :
        Script (Parser.level features size levels : Level Reader).operand).Steady := by
  induction levels with
  | zero =>
    have expression : (Script.call .expression (.refuse .nestingLimit) :
        Script (Parser.refuse .nestingLimit : Parser Reader Node)).Steady := .call _ (.refuse _)
    exact ⟨expression, steady_unary (.refuse _) (steady_value features size expression)⟩
  | succ levels ih =>
    -- Both parsers of a level go through those of the next one inside of `nested` only.
    obtain ⟨inner, operand⟩ := ih
    have expression := Sound.call .expression (steady_nested (steady_ternary operand inner))
    exact ⟨expression,
      steady_unary (steady_nested operand) (steady_value features size expression)⟩

section Template

variable (features : FeatureSet) (size : Nat) (deferred : Bool)

theorem steady_text? : (text? : Script (Parser.text? : Parser Reader (Option Node))).Steady :=
  .look fun _ => .choice (fun text => .bind (.moveKind (text ▸ nofun)) fun _ => .pure _)
    fun _ => .pure _

theorem steady_block :
    (block features size deferred :
      Script (Parser.block features size deferred : Parser Reader Node)).Steady := by
  have proper : startKind deferred ≠ .eof := by cases deferred <;> nofun
  exact .bind (steady_expect proper) fun _ =>
    .bind (steady_level features size maxNesting).1 fun child =>
      .bind (steady_expect nofun) fun _ => .pure _

theorem steady_partsFrom (budget : Nat) (parts : List Node) :
    (partsFrom features size deferred budget parts :
      Script (Parser.partsFrom features size deferred budget parts :
        Parser Reader (List Node))).Steady := by
  induction budget generalizing parts with
  | zero => exact .pure _
  | succ budget ih =>
    refine .look fun k => .choice (fun _ => .pure _) fun _ => ?_
    exact .bind (steady_block features size deferred).sound fun part =>
      .bind steady_text? fun text => ih _

theorem steady_blocks (text : Option Node) :
    (blocks features size text deferred :
      Script (Parser.blocks features size text deferred : Parser Reader Node)).Steady :=
  .bind (steady_block features size deferred) fun _ => .look fun _ => .choice
    (fun _ => .pure _) fun _ => .bind steady_text?.sound fun _ =>
      .bind (steady_partsFrom features size deferred size _) fun _ => .pure _

theorem steady_template :
    (template features size :
      Script (Parser.template features size : Parser Reader (Node × Bool))).Steady := by
  refine .bind steady_text? fun text => .look fun k => ?_
  cases k
  case eof => exact .pure _
  case startDynamic =>
    exact .bind (steady_blocks features size false text).sound fun root => .pure _
  case startDeferred =>
    exact .bind (steady_blocks features size true text).sound fun root => .pure _
  all_goals exact .refuse _

end Template

end Script

/-- The parser gives back all that it counts. -/
def Balanced {α : Type} (p : Parser Reader α) : Prop :=
  ∀ s a s', p s = .ok (a, s') → s'.nesting = s.nesting ∧ s'.depth = s.depth

theorem Script.Sound.balanced {α : Type} {p : Parser Reader α} {script : Script p}
    (h : script.Steady) : Balanced p := by
  intro s a s' ok
  obtain ⟨nesting, depth, -⟩ := h.gives s a s' trivial (Nat.zero_le _) ok
  exact ⟨nesting, depth⟩

/-- The parsers of all constructs give back what they count, over the two parsers of a level. -/
structure Level.Balanced (features : FeatureSet) (size : Nat) (level : Level Reader) : Prop where
  expression : Parser.Balanced level.expression
  ternary : Parser.Balanced (Parser.ternary level.operand level.expression)
  binary : ∀ tier, Parser.Balanced (Parser.binary level.operand tier)
  unary : Parser.Balanced level.operand
  value : Parser.Balanced (Parser.value features size level.expression)
  primary : Parser.Balanced (Parser.primary features size level.expression)
  arguments : Parser.Balanced (Parser.arguments size level.expression)

theorem balanced_level (features : FeatureSet) (size levels : Nat) :
    (level features size levels).Balanced features size := by
  obtain ⟨inner, operand⟩ := Script.steady_level features size levels
  exact {
    expression := inner.balanced
    ternary := (Script.steady_ternary operand inner).balanced
    binary := fun tier => (Script.steady_binary operand tier).balanced
    unary := operand.balanced
    value := (Script.steady_value features size inner).balanced
    primary := (Script.steady_primary features size inner).balanced
    arguments := (Script.steady_arguments size inner).balanced }

end Parser

namespace Template

open ElTemplate.Parser

/-- Every step of compiling is sound. -/
theorem sound_steps (features : FeatureSet) (source : String) :
    ∀ e ∈ steps features source, e.Sound := by
  rw [steps]
  split
  · next reader _ =>
    exact (Script.steady_template features source.length).steps 0 (initialState reader) trivial
      ⟨rfl, Nat.zero_le _, Nat.zero_le _, Nat.zero_le _⟩
  · exact List.forall_mem_nil _

/-- The counts of nesting and depth are balanced: a construct that is read leaves them as it found
them, nothing that was not counted is given back, and at every step nesting is the number of
expressions and operands that the step is inside of, within both limits. -/
theorem counters_balanced (features : FeatureSet) (source : String) :
    (∀ levels, (level features source.length levels).Balanced features source.length) ∧
    ∀ e ∈ steps features source,
      e.state.nesting = e.levels ∧ e.state.nesting ≤ maxNesting ∧
      e.state.nesting ≤ e.state.depth ∧ e.state.depth ≤ maxDepth ∧
      (e.action = .leave → 1 ≤ e.state.nesting ∧ 1 ≤ e.state.depth) ∧
      ∀ levels, e.action = .release levels → levels ≤ e.state.depth := by
  refine ⟨balanced_level features source.length, fun e step => ?_⟩
  have sound := sound_steps features source e step
  obtain ⟨nesting, within, above, bounded⟩ := sound.counts
  refine ⟨nesting, nesting.symm ▸ within, nesting.symm ▸ above, bounded, fun leave => ?_,
    sound.releases⟩
  have inside : 1 ≤ e.state.nesting := nesting.symm ▸ sound.leaves leave
  exact ⟨inside, Nat.le_trans inside (nesting.symm ▸ above)⟩

/-- The operand of the minus sign stands two levels deep, and the sum counts one more. -/
theorem counters_balanced_sum :
    (∃ e ∈ steps .none "$\x7b-a+1\x7d", e.action = .leave ∧ e.state.nesting = 2 ∧
      2 ≤ e.state.depth) ∧
    ∃ e ∈ steps .none "$\x7b-a+1\x7d", e.action = .release 1 ∧ 1 ≤ e.state.depth := by
  obtain ⟨-, balanced⟩ := counters_balanced .none "$\x7b-a+1\x7d"
  have leaves : ∃ e ∈ steps .none "$\x7b-a+1\x7d", e.action = .leave ∧ e.levels = 2 := by
    decide +kernel
  have releases : ∃ e ∈ steps .none "$\x7b-a+1\x7d", e.action = .release 1 := by
    decide +kernel
  obtain ⟨e, step, leave, levels⟩ := leaves
  obtain ⟨e', step', release⟩ := releases
  obtain ⟨nesting, -, above, -⟩ := balanced e step
  obtain ⟨-, -, -, -, -, within⟩ := balanced e' step'
  have deep : e.state.nesting = 2 := nesting.trans levels
  exact ⟨⟨e, step, leave, deep, deep ▸ above⟩, e', step', release, within 1 release⟩

end Template

end ElTemplate
