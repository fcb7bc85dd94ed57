import ElTemplate.Proofs.Parser.Equations

/-!
# Parsers step by step

A parser is a function on states, which says nothing about the states on the way. A script writes
the parser out in the elementary steps that it is made of, and belongs to that parser by its type.
Running a script gives every step with the state in which it is taken, up to the last one or to the
one that fails. The scripts of the parsers of the grammar follow their definitions.
-/

namespace ElTemplate.Parser

/-- The constructs whose parsers call one another. -/
inductive Construct where
  | expression
  | ternary
  /-- A chain of binary operators of one tier. -/
  | tier (tier : Nat)
  | unary
  | value
  | primary
  | arguments
deriving DecidableEq, Repr

/-- What is done in an elementary step. -/
inductive Action where
  /-- The current token is looked at. -/
  | look
  | refuse
  | advance
  /-- A token further on is looked at. -/
  | ahead (index : Nat)
  | deepen
  | enter
  | leave
  | release (levels : Nat)
  /-- A name is looked up in an inventory, or brought in. -/
  | register
  /-- The parser of a construct is called. -/
  | call (construct : Construct)
deriving DecidableEq, Repr

variable {σ α β : Type}

/-- A step of the run of a parser, and the state in which it is taken. -/
structure Event (σ : Type) where
  /-- The number of expressions and operands of unary operators that the step is inside of. -/
  levels : Nat
  action : Action
  state : ParserState σ

variable [TokenSource σ]

/-- The parser is one elementary step. Only the two tokens behind the current one are looked at
ahead of time. -/
inductive Performs : Action → {α : Type} → Parser σ α → Prop where
  | kind : Performs .look kind
  | state : Performs .look (get : Parser σ (ParserState σ))
  | refuse {α : Type} (expected : Expectation) : Performs .refuse (refuse expected : Parser σ α)
  | fail {α : Type} (e : ScanError) : Performs .refuse (throw (.scan e) : Parser σ α)
  | advance : Performs .advance advance
  | ahead {index : Nat} (near : index < 2) : Performs (.ahead index) (ahead index)
  | deepen : Performs .deepen deepen
  | enter : Performs .enter enter
  | leave : Performs .leave leave
  | release (levels : Nat) : Performs (.release levels) (release levels)
  | identifier (name : String) : Performs .register (identifier name)
  | call (features : FeatureSet) (qualifier : Option String) (name : String)
      (arguments : List Node) : Performs .register (call features qualifier name arguments)

/-- A parser written out in elementary steps. -/
inductive Script : {α : Type} → Parser σ α → Type 1 where
  | pure {α : Type} (a : α) : Script (Pure.pure a)
  | step {α : Type} {p : Parser σ α} (action : Action) (performs : Performs action p) : Script p
  | bind {α β : Type} {p : Parser σ α} {f : α → Parser σ β} (first : Script p)
      (next : ∀ a, Script (f a)) : Script (p >>= f)
  | choice {α : Type} {p q : Parser σ α} (c : Prop) [Decidable c] (yes : Script p)
      (no : Script q) : Script (if c then p else q)
  /-- What is read inside of one more expression or operand. -/
  | inside {α : Type} {p : Parser σ α} (inner : Script p) : Script p
  | call {α : Type} {p : Parser σ α} (construct : Construct) (script : Script p) : Script p
  | same {α : Type} {p q : Parser σ α} (eq : p = q) (script : Script p) : Script q

namespace Script

/-- The steps that are taken from a state on, inside of so many levels. -/
def trace {α : Type} {p : Parser σ α} :
    Script p → Nat → ParserState σ → List (Event σ)
  | .pure _, _, _ => []
  | .step action _, levels, s => [⟨levels, action, s⟩]
  | @Script.bind _ _ _ _ p _ first next, levels, s =>
    first.trace levels s ++
      match p s with
      | .ok (a, s') => (next a).trace levels s'
      | .error _ => []
  | @Script.choice _ _ _ _ _ c _ yes no, levels, s =>
    if c then yes.trace levels s else no.trace levels s
  | .inside inner, levels, s => inner.trace (levels + 1) s
  | .call construct script, levels, s =>
    ⟨levels, .call construct, s⟩ :: script.trace levels s
  | .same _ script, levels, s => script.trace levels s

section Trace

variable {p q : Parser σ α} {f : α → Parser σ β} {levels : Nat} {s : ParserState σ}

@[simp] theorem trace_pure (a : α) :
    (Script.pure a : Script (Pure.pure a : Parser σ α)).trace levels s = [] := by
  rw [trace]

@[simp] theorem trace_step {action : Action} (performs : Performs action p) :
    (Script.step action performs).trace levels s = [⟨levels, action, s⟩] := by
  rw [trace]

@[simp] theorem trace_bind (first : Script p) (next : ∀ a, Script (f a)) :
    (Script.bind first next).trace levels s = first.trace levels s ++
      match p s with
      | .ok (a, s') => (next a).trace levels s'
      | .error _ => [] := by
  rw [trace]

@[simp] theorem trace_choice (c : Prop) [Decidable c] (yes : Script p) (no : Script q) :
    (Script.choice c yes no).trace levels s =
      if c then yes.trace levels s else no.trace levels s := by
  rw [trace]

@[simp] theorem trace_inside (inner : Script p) :
    (Script.inside inner).trace levels s = inner.trace (levels + 1) s := by
  rw [trace]

@[simp] theorem trace_call (construct : Construct) (script : Script p) :
    (Script.call construct script).trace levels s =
      ⟨levels, .call construct, s⟩ :: script.trace levels s := by
  rw [trace]

@[simp] theorem trace_same (eq : p = q) (script : Script p) :
    (Script.same eq script).trace levels s = script.trace levels s := by
  rw [trace]

end Trace

end Script

/-- The steps are taken one after the other. Each of them, and the part behind a call, begins in the
state where what is before it has ended, and the last one ends with the result. -/
inductive Runs : ParserState σ → List (Event σ) → Except CompileError (ParserState σ) → Prop where
  | done {s : ParserState σ} : Runs s [] (.ok s)
  | call {levels : Nat} {construct : Construct} {s : ParserState σ} {events : List (Event σ)}
      {result : Except CompileError (ParserState σ)} (rest : Runs s events result) :
      Runs s (⟨levels, .call construct, s⟩ :: events) result
  | step {α : Type} {levels : Nat} {action : Action} {p : Parser σ α} {a : α}
      {s s' : ParserState σ} {events : List (Event σ)}
      {result : Except CompileError (ParserState σ)} (performs : Performs action p)
      (ok : p s = .ok (a, s')) (rest : Runs s' events result) :
      Runs s (⟨levels, action, s⟩ :: events) result
  | fail {α : Type} {levels : Nat} {action : Action} {p : Parser σ α} {e : CompileError}
      {s : ParserState σ} (performs : Performs action p) (failed : p s = .error e) :
      Runs s [⟨levels, action, s⟩] (.error e)

theorem Runs.append {s s' : ParserState σ} {first last : List (Event σ)}
    {result : Except CompileError (ParserState σ)} (before : Runs s first (.ok s'))
    (after : Runs s' last result) : Runs s (first ++ last) result := by
  generalize reached : Except.ok s' = middle at before
  induction before with
  | done =>
    cases reached
    exact after
  | call _ ih => exact .call (ih reached)
  | step performs ok _ ih => exact .step performs ok (ih reached)
  | fail => cases reached

namespace Script

/-- The trace of a script is the run of its parser. -/
theorem runs_trace {p : Parser σ α} (script : Script p) (levels : Nat) (s : ParserState σ) :
    Runs s (script.trace levels s) ((p s).map Prod.snd) := by
  induction script generalizing levels s with
  | pure a =>
    rw [trace_pure]
    exact .done
  | @step _ p action performs =>
    rw [trace_step]
    cases read : p s with
    | error e => exact .fail performs read
    | ok result => exact .step performs read .done
  | @bind _ _ p f first next ihfirst ihnext =>
    rw [trace_bind]
    have before := ihfirst levels s
    cases read : p s with
    | error e =>
      -- Nothing runs behind a part that fails.
      rw [read] at before
      rw [bind_of_error read, List.append_nil]
      exact before
    | ok result =>
      obtain ⟨a, s'⟩ := result
      rw [read] at before
      rw [bind_of_ok read]
      exact before.append (ihnext a levels s')
  | choice c yes no ihyes ihno =>
    rw [trace_choice]
    split
    · exact ihyes levels s
    · exact ihno levels s
  | inside inner ih =>
    rw [trace_inside]
    exact ih (levels + 1) s
  | call construct script ih =>
    rw [trace_call]
    exact .call (ih levels s)
  | same eq script ih =>
    rw [trace_same]
    exact eq ▸ ih levels s

section Grammar

variable {p : Parser σ α} {operand expression : Parser σ Node}

def look : Script (kind : Parser σ Token.Kind) :=
  .step .look .kind

def move : Script (advance : Parser σ Token) :=
  .step .advance .advance

def refuse (expected : Expectation) : Script (Parser.refuse expected : Parser σ α) :=
  .step .refuse (.refuse expected)

def expect (expected : Token.Kind) : Script (Parser.expect expected : Parser σ Token) :=
  .bind look fun k => .choice (k = expected) move (refuse (.oneOf [expected]))

def nested (inner : Script p) : Script (Parser.nested p) :=
  .bind (.step .enter .enter) fun _ => .inside <| .bind inner fun a =>
    .bind (.step .leave .leave) fun _ => .pure a

def chainFrom (inner : Script operand) (operator? : Token.Kind → Option BinaryOp) :
    (budget : Nat) → (left : Node) → (folds : Nat) →
      Script (Parser.chainFrom operand operator? budget left folds)
  | 0, left, folds =>
    .same (Parser.chainFrom.eq_def ..).symm <| .bind look fun k =>
      match operator? k with
      | none => .bind (.step _ (.release folds)) fun _ => .pure left
      | some _ => refuse .depthLimit
  | budget + 1, left, folds =>
    .same (Parser.chainFrom.eq_def ..).symm <| .bind look fun k =>
      match operator? k with
      | none => .bind (.step _ (.release folds)) fun _ => .pure left
      | some op =>
        .bind (.step _ .deepen) fun _ => .bind move fun _ => .bind inner fun right =>
          chainFrom inner operator? budget (.binary op left right) (folds + 1)

def binary (inner : Script operand) : (tier : Nat) → Script (Parser.binary operand tier)
  | 0 => inner
  | tier + 1 => .call (.tier (tier + 1)) <| .bind (binary inner tier) fun left =>
      chainFrom (binary inner tier) (BinaryOp.ofTier? (tier + 1)) maxDepth left 0

def ternary (first : Script operand) (inner : Script expression) :
    Script (Parser.ternary operand expression) :=
  .call .ternary <| .bind (binary first BinaryOp.tiers) fun condition => .bind look fun k =>
    .choice (k = .question)
      (.bind move fun _ => .bind inner fun yes => .bind (expect .colon) fun _ =>
        .bind inner fun no => .pure (Node.ternary condition yes no))
      (.pure condition)

def unary {value : Parser σ Node} (inner : Script operand) (other : Script value) :
    Script (Parser.unary operand value) :=
  .call .unary <| .bind look fun k =>
    match UnaryOp.ofKind? k with
    | some op => .bind move fun _ => .bind inner fun x => .pure (Node.unary op x)
    | none => other

def argumentsFrom (inner : Script expression) :
    (budget : Nat) → (done : List Node) → Script (Parser.argumentsFrom expression budget done)
  | 0, done => .pure done.reverse
  | budget + 1, done =>
    .bind look fun k => .choice (k = .comma)
      (.bind move fun _ => .bind inner fun argument =>
        argumentsFrom inner budget (argument :: done))
      (.pure done.reverse)

def arguments (size : Nat) (inner : Script expression) :
    Script (Parser.arguments size expression) :=
  .call .arguments <| .bind (expect .leftParen) fun _ => .bind look fun k =>
    .choice (k = .rightParen)
      (.bind (.pure []) fun done => .bind (expect .rightParen) fun _ => .pure done)
      (.bind inner fun argument => .bind (argumentsFrom inner size [argument]) fun done =>
        .bind (expect .rightParen) fun _ => .pure done)

def atQualifiedCall : Script (Parser.atQualifiedCall : Parser σ Bool) :=
  .bind look fun here => .choice (here = .colon)
    (.bind (.step _ (.ahead Nat.zero_lt_two)) fun next => .choice (next = .identifier)
      (.bind (.step _ (.ahead Nat.one_lt_two)) fun last => .pure (decide (last = .leftParen)))
      (.pure false))
    (.pure false)

def named (features : FeatureSet) (size : Nat) (inner : Script expression) :
    Script (Parser.named features size expression) :=
  .bind move fun name => .bind atQualifiedCall fun qualified => .choice (qualified = true)
    (.bind move fun _ => .bind move fun last => .bind (arguments size inner) fun args =>
      .step _ (.call features (some name.image) last.image args))
    (.bind look fun k => .choice (k = .leftParen)
      (.bind (arguments size inner) fun args => .step _ (.call features none name.image args))
      (.step _ (.identifier name.image)))

def literal : Script (Parser.literal : Parser σ Node) :=
  .bind (.step _ .state) fun s =>
    (match Literal.ofToken? (TokenSource.current s.source) with
    | none => refuse (.oneOf Expectation.operandStart)
    | some (.error _) => .step _ (.fail _)
    | some (.ok value) => .bind move fun _ => .pure (Node.literal value) :
      Script (match Literal.ofToken? (TokenSource.current s.source) with
        | none => _
        | some (.error _) => _
        | some (.ok _) => _))

def primary (features : FeatureSet) (size : Nat) (inner : Script expression) :
    Script (Parser.primary features size expression) := by
  refine .call .primary (.bind look fun k => ?_)
  -- The last branch of the parser stands for all other kinds, each of them a case of its own.
  cases k
  case identifier => exact named features size inner
  case leftParen =>
    exact .bind move fun _ => .bind inner fun x => .bind (expect .rightParen) fun _ =>
      .pure (Node.bracket x)
  all_goals exact literal

def accessKey? (inner : Script expression) : Script (Parser.accessKey? expression) := by
  refine .bind look fun k => ?_
  cases k
  case dot =>
    exact .bind move fun _ => .bind (expect .identifier) fun name =>
      .pure (some (AccessKey.property name.image))
  case leftBracket =>
    exact .bind move fun _ => .bind inner fun key => .bind (expect .rightBracket) fun _ =>
      .pure (some (AccessKey.item key))
  all_goals exact .pure none

def invocation (features : FeatureSet) (size : Nat) (inner : Script expression) (target : Node) :
    Script (Parser.invocation features size expression target) :=
  .bind look fun k => .choice (features.methodInvocations ∧ k = .leftParen)
    (.bind (arguments size inner) fun args => .pure (Node.method target args)) (.pure target)

def stepsFrom (features : FeatureSet) (size : Nat) (inner : Script expression) :
    (budget : Nat) → (base : Node) → (steps : Nat) →
      Script (Parser.stepsFrom features size expression budget base steps)
  | 0, base, steps =>
    .same (Parser.stepsFrom.eq_def ..).symm <| .bind (accessKey? inner) fun key =>
      match key with
      | none => .bind (.step _ (.release steps)) fun _ => .pure base
      | some _ => refuse .depthLimit
  | budget + 1, base, steps =>
    .same (Parser.stepsFrom.eq_def ..).symm <| .bind (accessKey? inner) fun key =>
      match key with
      | none => .bind (.step _ (.release steps)) fun _ => .pure base
      | some key =>
        .bind (.step _ .deepen) fun _ =>
          .bind (invocation features size inner (key.access base)) fun x =>
            stepsFrom features size inner budget x (steps + 1)

def value (features : FeatureSet) (size : Nat) (inner : Script expression) :
    Script (Parser.value features size expression) :=
  .call .value <| .bind (primary features size inner) fun base =>
    stepsFrom features size inner maxDepth base 0

end Grammar

/-- The scripts of the two parsers of a level. -/
structure OfLevel (level : Level σ) : Type 1 where
  expression : Script level.expression
  operand : Script level.operand

def level (features : FeatureSet) (size : Nat) :
    (levels : Nat) → OfLevel (Parser.level features size levels : Level σ)
  | 0 =>
    let expression := .call .expression (refuse .nestingLimit)
    { expression
      operand := unary (refuse .nestingLimit) (value features size expression) }
  | levels + 1 =>
    let inner := level features size levels
    let expression := .call .expression (nested (ternary inner.operand inner.expression))
    { expression
      operand := unary (nested inner.operand) (value features size expression) }

def expression (features : FeatureSet) (size : Nat) :
    Script (Parser.expression features size : Parser σ Node) :=
  (level features size maxNesting).expression

def text? : Script (Parser.text? : Parser σ (Option Node)) :=
  .bind look fun k => .choice (k = .text)
    (.bind move fun t => .pure (some (Node.text t.image))) (.pure none)

def block (features : FeatureSet) (size : Nat) (deferred : Bool) :
    Script (Parser.block features size deferred : Parser σ Node) :=
  .bind (expect (startKind deferred)) fun _ => .bind (expression features size) fun child =>
    .bind (expect .endEval) fun _ => .pure (Node.eval deferred child)

def partsFrom (features : FeatureSet) (size : Nat) (deferred : Bool) :
    (budget : Nat) → (parts : List Node) →
      Script (Parser.partsFrom features size deferred budget parts : Parser σ (List Node))
  | 0, parts => .pure parts.reverse
  | budget + 1, parts =>
    .bind look fun k => .choice (k = .eof) (.pure parts.reverse)
      (.bind (block features size deferred) fun part => .bind text? fun text =>
        partsFrom features size deferred budget (text.toList ++ part :: parts))

def blocks (features : FeatureSet) (size : Nat) (text : Option Node) (deferred : Bool) :
    Script (Parser.blocks features size text deferred : Parser σ Node) :=
  .bind (block features size deferred) fun first => .bind look fun k =>
    .choice (k = .eof ∧ text.isNone) (.pure first)
      (.bind text? fun next =>
        .bind (partsFrom features size deferred size (next.toList ++ first :: text.toList))
          fun parts => .pure (Node.composite parts))

def template (features : FeatureSet) (size : Nat) :
    Script (Parser.template features size : Parser σ (Node × Bool)) := by
  refine .bind text? fun text => .bind look fun k => ?_
  cases k
  case eof => exact .pure (text.getD (.text ""), false)
  case startDynamic =>
    exact .bind (blocks features size text false) fun root => .pure (root, false)
  case startDeferred =>
    exact .bind (blocks features size text true) fun root => .pure (root, true)
  all_goals exact refuse (.oneOf [.startDeferred, .startDynamic])

end Script

end ElTemplate.Parser

namespace ElTemplate.Template

open ElTemplate.Parser

/-- The steps in which a source text is compiled. -/
def steps (features : FeatureSet) (source : String) : List (Event Reader) :=
  match Reader.ofChars source.toList with
  | .ok reader =>
    (Script.template features source.length :
      Script (Parser.template features source.length : Parser Reader (Node × Bool))).trace 0
        (initialState reader)
  | .error _ => []

/-- These are the steps of the parser from the first token on, up to its result. -/
theorem runs_steps (features : FeatureSet) {source : String} {reader : Reader}
    (first : Reader.ofChars source.toList = .ok reader) :
    Runs (initialState reader) (steps features source)
      ((Parser.template features source.length (initialState reader)).map Prod.snd) := by
  simp only [steps, first]
  exact Script.runs_trace _ 0 _

end ElTemplate.Template
