import ElTemplate.Proofs.Grammar.Templates
import ElTemplate.Proofs.Node.Mentions

/-!
# Names in the order of their tokens

The tokens of a phrase are as many as its tree says, so the walk along both finds every name at its
token. The last tokens of the uses come in the order of the walk.
-/

namespace ElTemplate

namespace Mention

/-- The tokens of the mention are what they stand for. Those of a call are among the given ones: an
opening parenthesis comes behind its name, and the closing one later. -/
def StandsIn (us : List Token) (m : Mention) : Prop :=
  m.name.kind = .identifier ∧
    match m.callee? with
    | none => m.last = m.name
    | some callee => m.name.image = callee.name ∧ m.last.kind = .rightParen ∧
        ∃ vs, Grammar.kindOf vs = .leftParen ∧ m.name :: (vs ++ [m.last]) <:+: us

/-- The mentions are found among the tokens, ordered by their last ones, and the variables have
these names. -/
structure Found (us : List Token) (identifiers : List String) (ms : List Mention) : Prop where
  ordered : (ms.map last).Sublist us
  stands : ∀ m ∈ ms, m.StandsIn us
  identifiers : ms.filterMap identifier? = identifiers

variable {us vs : List Token} {m : Mention} {ms ms' : List Mention} {names names' : List String}

theorem StandsIn.mono (h : m.StandsIn us) (part : us <:+: vs) : m.StandsIn vs := by
  refine ⟨h.1, ?_⟩
  have tokens := h.2
  revert tokens
  cases m.callee? with
  | none => exact id
  | some callee =>
    exact fun ⟨name, closing, ws, opening, within⟩ =>
      ⟨name, closing, ws, opening, within.trans part⟩

namespace Found

theorem nil (us : List Token) : Found us [] [] :=
  ⟨List.nil_sublist us, List.forall_mem_nil _, rfl⟩

theorem mono (h : Found us names ms) (part : us <:+: vs) : Found vs names ms :=
  ⟨h.ordered.trans part.sublist, fun m member => (h.stands m member).mono part, h.identifiers⟩

theorem append (first : Found us names ms) (second : Found vs names' ms') :
    Found (us ++ vs) (names ++ names') (ms ++ ms') := by
  constructor
  case ordered =>
    rw [List.map_append]
    exact first.ordered.append second.ordered
  case stands =>
    exact List.forall_mem_append.mpr
      ⟨(first.mono (List.prefix_append us vs).isInfix).stands,
        (second.mono (List.suffix_append us vs).isInfix).stands⟩
  case identifiers => rw [List.filterMap_append, first.identifiers, second.identifiers]

theorem identifier {name : Token} (hname : name.kind = .identifier) :
    Found [name] [name.image] [.ofVariable name] :=
  ⟨.refl _, List.forall_mem_singleton.mpr ⟨hname, rfl⟩, rfl⟩

/-- A call is behind what its arguments use. -/
theorem call {qualifier : Option String} {arity : Nat} {name closing : Token}
    (arguments : Found us names ms) (hname : name.kind = .identifier)
    (hopening : Grammar.kindOf us = .leftParen) (hclosing : closing.kind = .rightParen) :
    Found (name :: (us ++ [closing])) names
      (ms ++ [⟨some ⟨qualifier, name.image, arity⟩, name, closing⟩]) := by
  constructor
  case ordered =>
    rw [List.map_append]
    exact (arguments.ordered.append (.refl _)).cons name
  case stands =>
    have within : us <:+: name :: (us ++ [closing]) := ⟨[name], [closing], rfl⟩
    exact List.forall_mem_append.mpr ⟨(arguments.mono within).stands,
      List.forall_mem_singleton.mpr ⟨hname, rfl, hclosing, us, hopening, List.infix_rfl⟩⟩
  case identifiers =>
    rw [List.filterMap_append, arguments.identifiers]
    exact List.append_nil names

end Found

end Mention

namespace Grammar

open Mention (Found)

/-- The tokens are so many, with so many before each of the nodes, and what the nodes mention is
found among them. What comes behind them is no matter. -/
structure CoversAll (gap width : Nat) (us : List Token) (xs : List Node) : Prop where
  length : us.length = width
  found : ∀ more, Found us (Node.identifiersAll xs)
    (Node.mentionsAll gap xs ((us ++ more).drop gap))

/-- The tokens are as many as the tree says, and what it mentions is found among them. -/
structure Covers (us : List Token) (x : Node) : Prop where
  length : us.length = x.width
  found : ∀ more, Found us x.identifiers (x.mentions (us ++ more))

/-- The tokens are as many as the trees of the phrase say, and mention what these mention. -/
def Phrase.Covers (us : List Token) (xs : List Node) : Phrase → Prop
  | .arguments => ∃ vs closing, us = vs ++ [closing] ∧ kindOf vs = .leftParen ∧
      closing.kind = .rightParen ∧ CoversAll 1 (max 1 (Node.widthAll 1 xs)) vs xs
  | .further => CoversAll 1 (Node.widthAll 1 xs) us xs
  | _ => ∃ x, xs = [x] ∧ Grammar.Covers us x

section Covering

variable {features : FeatureSet} {phrase : Phrase} {ts us vs ws rest : List Token}
  {nodes args : List Node} {x y z : Node} {t t' : Token}

theorem drop_behind {width : Nat} (length : us.length = width) :
    (us ++ t :: vs).drop (width + 1) = vs := by
  rw [← length, ← List.singleton_append, ← List.append_assoc]
  exact List.drop_left' List.length_append

attribute [local simp] Node.width Node.mentions Node.identifiers Node.subnodes Node.identifier?
  List.filterMap_cons

namespace Covers

theorem identifier {name : String} {index : Nat} (hname : t.kind = .identifier)
    (himage : t.image = name) : Covers [t] (.identifier name index) := by
  subst himage
  exact ⟨rfl, fun _ => .identifier hname⟩

theorem text (t : Token) (raw : String) : Covers [t] (.text raw) :=
  ⟨rfl, fun _ => .nil _⟩

theorem literal (t : Token) (value : Literal) : Covers [t] (.literal value) :=
  ⟨rfl, fun _ => .nil _⟩

theorem unary (operand : Covers us x) (t : Token) (op : UnaryOp) :
    Covers (t :: us) (.unary op x) := by
  refine ⟨by simp [operand.length], fun more => ?_⟩
  simpa using (operand.found more).mono (List.suffix_cons t us).isInfix

theorem bracket (inner : Covers us x) (t t' : Token) :
    Covers (t :: (us ++ [t'])) (.bracket x) := by
  refine ⟨by simp [inner.length], fun more => ?_⟩
  simpa using (inner.found (t' :: more)).mono ⟨[t], [t'], rfl⟩

theorem eval (child : Covers us x) (t t' : Token) (deferred : Bool) :
    Covers (t :: (us ++ [t'])) (.eval deferred x) := by
  refine ⟨by simp [child.length], fun more => ?_⟩
  simpa using (child.found (t' :: more)).mono ⟨[t], [t'], rfl⟩

theorem property (base : Covers us x) (t t' : Token) (name : String) (assignable : Bool) :
    Covers (us ++ [t, t']) (.property x name assignable) := by
  refine ⟨by simp [base.length], fun more => ?_⟩
  simpa using (base.found (t :: t' :: more)).mono (List.prefix_append us [t, t']).isInfix

/-- Two trees in a row, with a token between them. -/
theorem two (first : Covers us x) (second : Covers vs y) (t : Token) (more : List Token) :
    Found (us ++ t :: vs) (x.identifiers ++ y.identifiers) (x.mentions (us ++ t :: (vs ++ more)) ++
      y.mentions ((us ++ t :: (vs ++ more)).drop (x.width + 1))) := by
  rw [drop_behind first.length]
  exact (first.found _).append ((second.found more).mono (List.suffix_cons t vs).isInfix)

theorem binary (left : Covers us x) (right : Covers vs y) (t : Token) (op : BinaryOp) :
    Covers (us ++ t :: vs) (.binary op x y) := by
  refine ⟨?_, fun more => ?_⟩
  · simp [left.length, right.length]
    omega
  · simpa using left.two right t more

theorem item (base : Covers us x) (key : Covers vs y) (t t' : Token) (assignable : Bool) :
    Covers (us ++ t :: (vs ++ [t'])) (.item x y assignable) := by
  refine ⟨?_, fun more => ?_⟩
  · simp [base.length, key.length]
    omega
  · have part : us ++ t :: vs <:+: us ++ t :: (vs ++ [t']) := ⟨[], [t'], by simp⟩
    simpa using (base.two key t (t' :: more)).mono part

theorem ternary (condition : Covers us x) (yes : Covers vs y) (no : Covers ws z) (t t' : Token) :
    Covers (us ++ t :: (vs ++ t' :: ws)) (.ternary x y z) := by
  refine ⟨?_, fun more => ?_⟩
  · simp [condition.length, yes.length, no.length]
    omega
  · have length : (us ++ t :: vs).length = x.width + y.width + 1 := by
      simp [condition.length, yes.length]
      omega
    have behind : (us ++ t :: (vs ++ t' :: (ws ++ more))).drop (x.width + y.width + 2) =
        ws ++ more := by
      simpa using drop_behind (t := t') length
    have found := (condition.two yes t (t' :: (ws ++ more))).append
      ((no.found more).mono (List.suffix_cons t' ws).isInfix)
    simpa [behind] using found

theorem method (target : Covers us x)
    (arguments : CoversAll 1 (max 1 (Node.widthAll 1 args)) vs args) (t : Token) :
    Covers (us ++ (vs ++ [t])) (.method x args) := by
  refine ⟨?_, fun more => ?_⟩
  · simp [target.length, arguments.length]
    omega
  · have behind : (us ++ (vs ++ t :: more)).drop (x.width + 1) = (vs ++ t :: more).drop 1 := by
      rw [← target.length, List.drop_length_add_append]
    have found := (target.found (vs ++ t :: more)).append (arguments.found (t :: more))
    have part : us ++ vs <:+: us ++ (vs ++ [t]) := ⟨[], [t], by simp⟩
    simpa [behind, Node.identifiersAll] using found.mono part

/-- A call, whose qualifier takes no tokens if there is none. -/
theorem call (us : List Token) {qualifier : Option String} {name : String} {index : Nat}
    (hqualifier : us.length = Node.qualifierWidth qualifier) (hname : t.kind = .identifier)
    (himage : t.image = name) (arguments : CoversAll 1 (max 1 (Node.widthAll 1 args)) vs args)
    (hopening : kindOf vs = .leftParen) (hclosing : t'.kind = .rightParen) :
    Covers (us ++ t :: (vs ++ [t'])) (.call qualifier name index args) := by
  subst himage
  refine ⟨?_, fun more => ?_⟩
  · simp [hqualifier, arguments.length]
    omega
  · have behind : (us ++ t :: (vs ++ t' :: more)).drop (Node.qualifierWidth qualifier) =
        t :: (vs ++ t' :: more) := List.drop_left' hqualifier
    have closing : (vs ++ t' :: more)[max 1 (Node.widthAll 1 args)]? = some t' := by
      simp [← arguments.length]
    have mentions : (Node.call qualifier t.image index args).mentions
        (us ++ t :: (vs ++ t' :: more)) =
          Node.mentionsAll 1 args ((vs ++ t' :: more).drop 1) ++
            [⟨some ⟨qualifier, t.image, args.length⟩, t, t'⟩] := by
      rw [Node.mentions, behind]
      simp [closing]
    rw [List.append_assoc, List.cons_append, List.append_assoc, List.singleton_append, mentions]
    exact ((arguments.found (t' :: more)).call hname hopening hclosing).mono
      (List.suffix_append us _).isInfix

end Covers

namespace CoversAll

theorem nil {width : Nat} (length : us.length = width) (gap : Nat) : CoversAll gap width us [] :=
  ⟨length, fun _ => .nil us⟩

/-- One more node in front of the others. -/
theorem cons (us : List Token) (first : Covers vs x)
    (further : CoversAll us.length (Node.widthAll us.length args) ws args) :
    CoversAll us.length (Node.widthAll us.length (x :: args)) (us ++ (vs ++ ws)) (x :: args) := by
  refine ⟨?_, fun more => ?_⟩
  · simp [first.length, further.length, Node.widthAll]
    omega
  · have behind : (vs ++ (ws ++ more)).drop (x.width + us.length) =
        (ws ++ more).drop us.length := by
      rw [← first.length, List.drop_length_add_append]
    have found := ((first.found (ws ++ more)).append (further.found more)).mono
      (List.suffix_append us _).isInfix
    simpa [behind, Node.identifiersAll, Node.mentionsAll, Node.subnodesAll] using found

end CoversAll

/-- What a phrase is derived from covers its nodes. -/
theorem Derives.covers (h : Derives features phrase ts nodes rest) :
    ∃ us, ts = us ++ rest ∧ phrase.Covers us nodes := by
  induction h with
  | condition _ ih => exact ih
  | @ternary _ _ _ _ question colon _ _ _ _ _ _ _ _ first second third =>
    obtain ⟨us, rfl, _, ⟨⟩, condition⟩ := first
    obtain ⟨vs, rfl, _, ⟨⟩, yes⟩ := second
    obtain ⟨ws, rfl, _, ⟨⟩, no⟩ := third
    exact ⟨_, by simp, _, rfl, condition.ternary yes no question colon⟩
  | operand _ ih => exact ih
  | lift _ ih => exact ih
  | @binary _ _ _ _ operator _ _ _ _ _ _ _ first second =>
    obtain ⟨us, rfl, _, ⟨⟩, left⟩ := first
    obtain ⟨vs, rfl, _, ⟨⟩, right⟩ := second
    exact ⟨_, by simp, _, rfl, left.binary right operator _⟩
  | unary _ _ ih =>
    obtain ⟨us, rfl, _, ⟨⟩, operand⟩ := ih
    exact ⟨_, rfl, _, rfl, operand.unary _ _⟩
  | value _ ih => exact ih
  | primary _ ih => exact ih
  | @property _ _ dot name _ _ _ _ ih =>
    obtain ⟨us, rfl, _, ⟨⟩, base⟩ := ih
    exact ⟨_, by simp, _, rfl, base.property dot name _ _⟩
  | @item _ _ _ opening closing _ _ _ _ _ _ first second =>
    obtain ⟨us, rfl, _, ⟨⟩, base⟩ := first
    obtain ⟨vs, rfl, _, ⟨⟩, key⟩ := second
    exact ⟨_, by simp, _, rfl, base.item key opening closing _⟩
  | method _ _ _ _ first second =>
    obtain ⟨us, rfl, _, ⟨⟩, target⟩ := first
    obtain ⟨_, rfl, vs, closing, rfl, -, -, arguments⟩ := second
    exact ⟨_, by simp, _, rfl, target.method arguments closing⟩
  | identifier hname => exact ⟨_, rfl, _, rfl, .identifier hname rfl⟩
  | call hname _ ih =>
    obtain ⟨_, rfl, vs, closing, rfl, hopening, hclosing, arguments⟩ := ih
    exact ⟨_, rfl, _, rfl, .call [] rfl hname rfl arguments hopening hclosing⟩
  | qualifiedCall _ _ hname _ ih =>
    obtain ⟨_, rfl, vs, closing, rfl, hopening, hclosing, arguments⟩ := ih
    exact ⟨_, rfl, _, rfl, .call [_, _] rfl hname rfl arguments hopening hclosing⟩
  | @bracket _ _ opening closing _ _ _ _ ih =>
    obtain ⟨us, rfl, _, ⟨⟩, inner⟩ := ih
    exact ⟨_, by simp, _, rfl, inner.bracket opening closing⟩
  | literal => exact ⟨_, rfl, _, rfl, .literal _ _⟩
  | @noArguments _ opening closing hopening hclosing =>
    exact ⟨[opening, closing], rfl, [opening], closing, rfl, hopening, hclosing, .nil (by rfl) 1⟩
  | @arguments _ _ _ opening closing arg args hopening _ _ hclosing first second =>
    obtain ⟨us, rfl, _, ⟨⟩, arg⟩ := first
    obtain ⟨vs, rfl, further⟩ := second
    have all := CoversAll.cons [opening] arg further
    refine ⟨[opening] ++ (us ++ vs) ++ [closing], by simp, _, _, rfl, hopening, hclosing, ?_⟩
    rw [Nat.max_eq_right (by simp [Node.widthAll]; omega)]
    exact all
  | noFurther => exact ⟨[], rfl, .nil (by rfl) 1⟩
  | @further _ _ _ comma _ _ _ _ _ first second =>
    obtain ⟨us, rfl, _, ⟨⟩, arg⟩ := first
    obtain ⟨vs, rfl, further⟩ := second
    exact ⟨[comma] ++ (us ++ vs), by simp, CoversAll.cons [comma] arg further⟩

theorem Block.covers {deferred : Bool} (h : Block features deferred ts x rest) :
    ∃ us, ts = us ++ rest ∧ Covers us x := by
  obtain @⟨_, _, opening, closing, _, -, expression, -⟩ := h
  obtain ⟨us, rfl, _, ⟨⟩, child⟩ := expression.covers
  exact ⟨_, by simp, child.eval opening closing deferred⟩

theorem Parts.covers {deferred : Bool} (h : Parts features deferred ts nodes) :
    CoversAll 0 (Node.widthAll 0 nodes) ts nodes := by
  induction h with
  | nil => exact .nil (by rfl) 0
  | block first _ ih =>
    obtain ⟨us, rfl, part⟩ := first.covers
    exact CoversAll.cons [] part ih
  | @blockText _ _ text _ _ first htext _ ih =>
    obtain ⟨us, rfl, part⟩ := first.covers
    have texts := CoversAll.cons [] (Covers.text text text.image) ih
    exact CoversAll.cons [] part texts

/-- The tokens of a sentence mention what its root mentions. -/
theorem Sentence.found {deferred : Bool} (h : Sentence features ts x deferred) :
    Found ts x.identifiers (x.mentions ts) := by
  cases h with
  | empty => exact .nil []
  | text => exact .nil _
  | block block =>
    obtain ⟨us, rfl, part⟩ := block.covers
    rw [List.append_nil]
    simpa using part.found []
  | parts derived => simpa [Node.identifiersAll] using derived.covers.found []
  | @textParts _ _ text _ _ derived =>
    have texts := CoversAll.cons [] (Covers.text text text.image) derived.covers
    simpa [Node.identifiersAll] using texts.found []

end Covering

end Grammar

end ElTemplate
