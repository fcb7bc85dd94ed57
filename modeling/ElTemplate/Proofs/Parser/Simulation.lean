import ElTemplate.Proofs.Parser.Equations

/-!
# Parsers do not depend on where tokens come from

A parser uses its source of tokens only through the current token, moving on, and asking for kinds
further ahead. If two sources agree on these three, and keep agreeing, the parser gives the same
result on both: the same value from related states, or the same error. If one of the sources ends
early, with an error that the other one does not have, then this error is all that may differ.
-/

namespace ElTemplate

variable {σ τ α β ε : Type}

/-- The same error on both sides, or results in the relation. The right side may also have an error
of its own, of those that are lost on the left. -/
inductive Agree (lost : ε → Prop) (R : α → β → Prop) : Except ε α → Except ε β → Prop
  | ok {a : α} {b : β} (related : R a b) : Agree lost R (.ok a) (.ok b)
  | error (e : ε) : Agree lost R (.error e) (.error e)
  | lost {x : Except ε α} {e : ε} (ended : lost e) : Agree lost R x (.error e)

/-- The same value on both sides, and what is left in the relation. -/
def SameValue (R : σ → τ → Prop) (x : α × σ) (y : α × τ) : Prop :=
  x.1 = y.1 ∧ R x.2 y.2

/-- Sources of tokens that cannot be told apart until the second one ends with a lost error. -/
structure TokenSource.Simulation [TokenSource σ] [TokenSource τ] (lost : ScanError → Prop)
    (R : σ → τ → Prop) : Prop where
  current : ∀ {a b}, R a b → TokenSource.current a = TokenSource.current b
  advance : ∀ {a b}, R a b → Agree lost R (TokenSource.advance a) (TokenSource.advance b)
  ahead : ∀ {a b} (index : Nat), R a b →
    Agree lost (SameValue R) (TokenSource.ahead index a) (TokenSource.ahead index b)

/-- Parser states that differ in the source only. -/
structure ParserState.Related (R : σ → τ → Prop) (s : ParserState σ) (t : ParserState τ) :
    Prop where
  source : R s.source t.source
  identifiers : s.identifiers = t.identifiers
  functions : s.functions = t.functions
  nesting : s.nesting = t.nesting
  depth : s.depth = t.depth

namespace Parser

/-- The error is that of a source which has ended early. -/
def IsLost (lost : ScanError → Prop) (e : CompileError) : Prop :=
  ∃ se, lost se ∧ e = .scan se

/-- The two parsers give the same on related states, unless the second one loses its tokens. -/
def Simulates (lost : ScanError → Prop) (R : σ → τ → Prop) (p : Parser σ α) (q : Parser τ α) :
    Prop :=
  ∀ s t, ParserState.Related R s t →
    Agree (IsLost lost) (SameValue (ParserState.Related R)) (p s) (q t)

namespace Simulates

variable {lost : ScanError → Prop} {R : σ → τ → Prop}

theorem pure (a : α) : Simulates lost R (Pure.pure a) (Pure.pure a) :=
  fun _ _ h => .ok ⟨rfl, h⟩

theorem bind {p : Parser σ α} {q : Parser τ α} {f : α → Parser σ β} {g : α → Parser τ β}
    (first : Simulates lost R p q) (next : ∀ a, Simulates lost R (f a) (g a)) :
    Simulates lost R (p >>= f) (q >>= g) := by
  intro s t h
  have step := first s t h
  change Agree _ _ (Except.bind (p s) _) (Except.bind (q t) _)
  generalize p s = x at step ⊢
  generalize q t = y at step ⊢
  cases step with
  | error e => exact .error e
  | lost ended => exact .lost ended
  | @ok x y related =>
    obtain ⟨a, s'⟩ := x
    obtain ⟨b, t'⟩ := y
    obtain ⟨rfl, related⟩ := related
    exact next a s' t' related

variable [TokenSource σ] [TokenSource τ] (sim : TokenSource.Simulation lost R)

include sim

theorem kind : Simulates lost R kind kind := by
  intro s t h
  exact .ok ⟨congrArg Token.kind (sim.current h.source), h⟩

theorem refuse (expected : Expectation) :
    Simulates lost R (Parser.refuse (α := α) expected) (Parser.refuse expected) := by
  intro s t h
  change Agree _ _ (.error (CompileError.parse ⟨TokenSource.current s.source, expected⟩))
    (.error (CompileError.parse ⟨TokenSource.current t.source, expected⟩))
  rw [sim.current h.source]
  exact .error _

theorem advance : Simulates lost R advance advance := by
  intro s t h
  have step := sim.advance h.source
  simp only [Parser.advance]
  generalize TokenSource.advance s.source = x at step ⊢
  generalize TokenSource.advance t.source = y at step ⊢
  cases step with
  | ok related => exact .ok ⟨sim.current h.source, { h with source := related }⟩
  | error e => exact .error _
  | @lost _ e ended => exact .lost ⟨e, ended, rfl⟩

theorem ahead (index : Nat) : Simulates lost R (ahead index) (ahead index) := by
  intro s t h
  have step := sim.ahead index h.source
  simp only [Parser.ahead]
  generalize TokenSource.ahead index s.source = x at step ⊢
  generalize TokenSource.ahead index t.source = y at step ⊢
  cases step with
  | ok related => exact .ok ⟨related.1, { h with source := related.2 }⟩
  | error e => exact .error _
  | @lost _ e ended => exact .lost ⟨e, ended, rfl⟩

theorem expect (expected : Token.Kind) : Simulates lost R (expect expected) (expect expected) := by
  apply (kind sim).bind
  intro k
  split
  · exact advance sim
  · exact refuse sim _

theorem deepen : Simulates lost R deepen deepen := by
  intro s t h
  simp only [Parser.deepen, h.depth]
  split
  · exact .ok ⟨rfl, { h with depth := rfl }⟩
  · exact refuse sim _ s t h

theorem enter : Simulates lost R enter enter := by
  intro s t h
  simp only [Parser.enter, h.nesting]
  split
  · exact deepen sim _ _ { h with nesting := rfl }
  · exact refuse sim _ s t h

omit [TokenSource σ] [TokenSource τ] sim in
theorem leave : Simulates lost R leave leave := by
  intro s t h
  exact .ok ⟨rfl, { h with nesting := congrArg (· - 1) h.nesting, depth := congrArg (· - 1) h.depth }⟩

omit [TokenSource σ] [TokenSource τ] sim in
theorem release (levels : Nat) : Simulates lost R (release levels) (release levels) := by
  intro s t h
  exact .ok ⟨rfl, { h with depth := congrArg (· - levels) h.depth }⟩

omit [TokenSource σ] [TokenSource τ] sim in
theorem identifier (name : String) : Simulates lost R (identifier name) (identifier name) := by
  intro s t h
  simp only [Parser.identifier, h.identifiers]
  exact .ok ⟨rfl, { h with identifiers := rfl }⟩

omit [TokenSource σ] [TokenSource τ] sim in
theorem call (features : FeatureSet) (qualifier : Option String) (name : String)
    (arguments : List Node) :
    Simulates lost R (call features qualifier name arguments)
      (call features qualifier name arguments) := by
  intro s t h
  simp only [Parser.call, h.functions]
  exact .ok ⟨rfl, { h with functions := rfl }⟩

variable {p : Parser σ α} {q : Parser τ α}

theorem nested (inner : Simulates lost R p q) : Simulates lost R (nested p) (nested q) :=
  (enter sim).bind fun _ => inner.bind fun a => leave.bind fun _ => pure a

variable {operand : Parser σ Node} {operand' : Parser τ Node}

theorem chainFrom (inner : Simulates lost R operand operand')
    (operator? : Token.Kind → Option BinaryOp) (budget : Nat) (left : Node) (folds : Nat) :
    Simulates lost R (chainFrom operand operator? budget left folds)
      (chainFrom operand' operator? budget left folds) := by
  induction budget generalizing left folds with
  | zero =>
    unfold Parser.chainFrom
    apply (kind sim).bind
    intro k
    cases operator? k with
    | none => exact (release folds).bind fun _ => pure left
    | some op => exact refuse sim _
  | succ budget ih =>
    unfold Parser.chainFrom
    apply (kind sim).bind
    intro k
    cases operator? k with
    | none => exact (release folds).bind fun _ => pure left
    | some op =>
      exact (deepen sim).bind fun _ => (advance sim).bind fun _ => inner.bind fun right =>
        ih (.binary op left right) (folds + 1)

theorem binary (inner : Simulates lost R operand operand') (tier : Nat) :
    Simulates lost R (binary operand tier) (binary operand' tier) := by
  induction tier with
  | zero => exact inner
  | succ tier ih => exact ih.bind fun left => chainFrom sim ih _ _ left 0

section Expression

variable {expression : Parser σ Node} {expression' : Parser τ Node}
  (inner : Simulates lost R expression expression')

include inner

theorem ternary (first : Simulates lost R operand operand') :
    Simulates lost R (ternary operand expression) (ternary operand' expression') := by
  refine (binary sim first _).bind fun condition => (kind sim).bind fun k => ?_
  split
  · exact (advance sim).bind fun _ => inner.bind fun yes => (expect sim _).bind fun _ =>
      inner.bind fun no => pure _
  · exact pure condition

theorem unary {value : Parser σ Node} {value' : Parser τ Node}
    (other : Simulates lost R value value') :
    Simulates lost R (unary expression value) (unary expression' value') := by
  apply (kind sim).bind
  intro k
  cases UnaryOp.ofKind? k with
  | none => exact other
  | some op => exact (advance sim).bind fun _ => inner.bind fun operand => pure _

theorem argumentsFrom (budget : Nat) (arguments : List Node) :
    Simulates lost R (argumentsFrom expression budget arguments)
      (argumentsFrom expression' budget arguments) := by
  induction budget generalizing arguments with
  | zero => exact pure _
  | succ budget ih =>
    apply (kind sim).bind
    intro k
    split
    · exact (advance sim).bind fun _ => inner.bind fun argument => ih (argument :: arguments)
    · exact pure _

theorem arguments (size : Nat) :
    Simulates lost R (arguments size expression) (arguments size expression') := by
  refine (expect sim _).bind fun _ => (kind sim).bind fun k => ?_
  split
  · exact (pure []).bind fun _ => (expect sim _).bind fun _ => pure _
  · exact inner.bind fun argument => (argumentsFrom sim inner size [argument]).bind fun arguments =>
      (expect sim _).bind fun _ => pure arguments

omit inner in
theorem atQualifiedCall : Simulates lost R atQualifiedCall atQualifiedCall := by
  apply (kind sim).bind
  intro k
  split
  · apply (ahead sim 0).bind
    intro k
    split
    · exact (ahead sim 1).bind fun k => pure _
    · exact pure _
  · exact pure _

theorem named (features : FeatureSet) (size : Nat) :
    Simulates lost R (named features size expression) (named features size expression') := by
  refine (advance sim).bind fun name => (atQualifiedCall sim).bind fun qualified => ?_
  split
  · exact (advance sim).bind fun _ => (advance sim).bind fun _ =>
      (arguments sim inner size).bind fun arguments => call features _ _ arguments
  · apply (kind sim).bind
    intro k
    split
    · exact (arguments sim inner size).bind fun arguments => call features _ _ arguments
    · exact identifier _

omit inner in
theorem literal : Simulates lost R literal literal := by
  intro s t h
  simp only [literal_apply, sim.current h.source]
  cases Literal.ofToken? (TokenSource.current t.source) with
  | none => exact refuse sim _ s t h
  | some value =>
    cases value with
    | error fault => exact .error _
    | ok value => exact (advance sim).bind (fun _ => pure (Node.literal value)) s t h

theorem primary (features : FeatureSet) (size : Nat) :
    Simulates lost R (primary features size expression) (primary features size expression') := by
  apply (kind sim).bind
  intro k
  split
  · exact named sim inner features size
  · exact (advance sim).bind fun _ => inner.bind fun operand => (expect sim _).bind fun _ => pure _
  · exact literal sim

theorem accessKey? : Simulates lost R (accessKey? expression) (accessKey? expression') := by
  apply (kind sim).bind
  intro k
  split
  · exact (advance sim).bind fun _ => (expect sim _).bind fun name => pure _
  · exact (advance sim).bind fun _ => inner.bind fun key => (expect sim _).bind fun _ => pure _
  · exact pure _

theorem invocation (features : FeatureSet) (size : Nat) (target : Node) :
    Simulates lost R (invocation features size expression target)
      (invocation features size expression' target) := by
  apply (kind sim).bind
  intro k
  split
  · exact (arguments sim inner size).bind fun arguments => pure _
  · exact pure target

theorem stepsFrom (features : FeatureSet) (size budget : Nat) (base : Node) (steps : Nat) :
    Simulates lost R (stepsFrom features size expression budget base steps)
      (stepsFrom features size expression' budget base steps) := by
  induction budget generalizing base steps with
  | zero =>
    unfold Parser.stepsFrom
    apply (accessKey? sim inner).bind
    intro key
    cases key with
    | none => exact (release steps).bind fun _ => pure base
    | some key => exact refuse sim _
  | succ budget ih =>
    unfold Parser.stepsFrom
    apply (accessKey? sim inner).bind
    intro key
    cases key with
    | none => exact (release steps).bind fun _ => pure base
    | some key =>
      exact (deepen sim).bind fun _ =>
        (invocation sim inner features size (key.access base)).bind fun value =>
          ih value (steps + 1)

theorem value (features : FeatureSet) (size : Nat) :
    Simulates lost R (value features size expression) (value features size expression') :=
  (primary sim inner features size).bind fun base => stepsFrom sim inner features size _ base 0

end Expression

/-- The parsers of every level agree, from the innermost outwards. -/
theorem level (features : FeatureSet) (size levels : Nat) :
    Simulates lost R (level features size levels).expression (level features size levels).expression ∧
    Simulates lost R (level features size levels).operand (level features size levels).operand := by
  induction levels with
  | zero =>
    have limit := refuse (α := Node) sim .nestingLimit
    exact ⟨limit, unary sim limit (value sim limit features size)⟩
  | succ levels ih =>
    have outer := nested sim (ternary sim ih.1 ih.2)
    exact ⟨outer, unary sim (nested sim ih.2) (value sim outer features size)⟩

theorem expression (features : FeatureSet) (size : Nat) :
    Simulates lost R (expression features size) (Parser.expression features size) :=
  (level sim features size maxNesting).1

theorem text? : Simulates lost R text? text? := by
  apply (kind sim).bind
  intro k
  split
  · exact (advance sim).bind fun t => pure _
  · exact pure _

theorem block (features : FeatureSet) (size : Nat) (deferred : Bool) :
    Simulates lost R (block features size deferred) (block features size deferred) :=
  (expect sim _).bind fun _ => (expression sim features size).bind fun child =>
    (expect sim _).bind fun _ => pure (Node.eval deferred child)

theorem partsFrom (features : FeatureSet) (size : Nat) (deferred : Bool) (budget : Nat)
    (parts : List Node) :
    Simulates lost R (partsFrom features size deferred budget parts)
      (partsFrom features size deferred budget parts) := by
  induction budget generalizing parts with
  | zero => exact pure _
  | succ budget ih =>
    apply (kind sim).bind
    intro k
    split
    · exact pure _
    · exact (block sim features size deferred).bind fun part => (text? sim).bind fun text => ih _

theorem blocks (features : FeatureSet) (size : Nat) (text : Option Node) (deferred : Bool) :
    Simulates lost R (blocks features size text deferred) (blocks features size text deferred) := by
  refine (block sim features size deferred).bind fun first => (kind sim).bind fun k => ?_
  split
  · exact pure first
  · exact (text? sim).bind fun next =>
      (partsFrom sim features size deferred size _).bind fun parts => pure (Node.composite parts)

theorem template (features : FeatureSet) (size : Nat) :
    Simulates lost R (template features size) (template features size) := by
  refine (text? sim).bind fun text => (kind sim).bind fun k => ?_
  split
  · exact pure _
  · exact (blocks sim features size text false).bind fun root => pure (root, false)
  · exact (blocks sim features size text true).bind fun root => pure (root, true)
  · exact refuse sim _

end Simulates

/-- Sources that cannot be told apart spell the same template, or fail in the same way, unless the
second one loses its tokens. -/
theorem run_agree [TokenSource σ] [TokenSource τ] {lost : ScanError → Prop} {R : σ → τ → Prop}
    (sim : TokenSource.Simulation lost R) (features : FeatureSet) (size : Nat) {a : σ} {b : τ}
    (h : R a b) : run features size a = run features size b ∨
      ∃ e, lost e ∧ run features size b = .error (.scan e) := by
  have related : ParserState.Related R (initialState a) (initialState b) :=
    ⟨h, rfl, rfl, rfl, rfl⟩
  have same := Simulates.template sim features size _ _ related
  simp only [run]
  generalize template features size (initialState a) = x at same ⊢
  generalize template features size (initialState b) = y at same ⊢
  cases same with
  | error e => exact .inl rfl
  | lost ended =>
    obtain ⟨e, ended, rfl⟩ := ended
    exact .inr ⟨e, ended, rfl⟩
  | ok related =>
    obtain ⟨value, rest⟩ := related
    simp only [value, rest.identifiers, rest.functions, true_or]

theorem run_eq_of_simulation [TokenSource σ] [TokenSource τ] {R : σ → τ → Prop}
    (sim : TokenSource.Simulation (fun _ => False) R) (features : FeatureSet) (size : Nat) {a : σ}
    {b : τ} (h : R a b) : run features size a = run features size b :=
  (run_agree sim features size h).resolve_right fun ⟨_, never, _⟩ => never

end Parser

end ElTemplate
