import ElTemplate.Proofs.Grammar.Completion
import ElTemplate.Proofs.Grammar.Height
import ElTemplate.Proofs.Node.Canonical
import ElTemplate.Proofs.Token.Text

/-!
# Expressions with one long path

Trees that are a single path, with null literals beside it, reach every height that the limits
allow. They can be written down with tokens that scan again, and they are legible.
-/

namespace ElTemplate

namespace Node

theorem FitsWithin.of_fits {nesting nesting' depth depth' : Nat} {x : Node}
    (hnesting : nesting' ≤ nesting) (hdepth : depth' ≤ depth)
    (mono : x.Fits (nesting + 1) (depth + 1) → x.Fits (nesting' + 1) (depth' + 1))
    (h : x.FitsWithin nesting depth) : x.FitsWithin nesting' depth' := by
  obtain ⟨outer, shallow, fits⟩ := h
  exact ⟨by omega, by omega, mono fits⟩

mutual

/-- What fits where many levels are open fits where fewer are. -/
theorem fits_mono {nesting nesting' depth depth' : Nat} (hnesting : nesting' ≤ nesting)
    (hdepth : depth' ≤ depth) (x : Node) (h : x.Fits nesting depth) :
    x.Fits nesting' depth' := by
  cases x with
  | text raw => trivial
  | eval deferred child =>
    rw [Fits] at h ⊢
    exact FitsWithin.of_fits hnesting hdepth (fits_mono (by omega) (by omega) child) h
  | literal value => trivial
  | identifier name index => trivial
  | property base name assignable =>
    rw [Fits] at h ⊢
    exact ⟨fits_mono hnesting hdepth base h.1, by omega⟩
  | item base key assignable =>
    rw [Fits] at h ⊢
    obtain ⟨fitsBase, fitsKey, less⟩ := h
    exact ⟨fits_mono hnesting hdepth base fitsBase,
      FitsWithin.of_fits hnesting (by omega) (fits_mono (by omega) (by omega) key) fitsKey,
      by omega⟩
  | bracket inner =>
    rw [Fits] at h ⊢
    exact FitsWithin.of_fits hnesting hdepth (fits_mono (by omega) (by omega) inner) h
  | unary op operand =>
    rw [Fits] at h ⊢
    exact FitsWithin.of_fits hnesting hdepth (fits_mono (by omega) (by omega) operand) h
  | binary op left right =>
    rw [Fits] at h ⊢
    obtain ⟨fitsLeft, less, fitsRight⟩ := h
    exact ⟨fits_mono hnesting hdepth left fitsLeft, by omega,
      fits_mono hnesting (by omega) right fitsRight⟩
  | ternary condition yes no =>
    rw [Fits] at h ⊢
    obtain ⟨fitsCondition, fitsYes, fitsNo⟩ := h
    exact ⟨fits_mono hnesting hdepth condition fitsCondition,
      FitsWithin.of_fits hnesting hdepth (fits_mono (by omega) (by omega) yes) fitsYes,
      FitsWithin.of_fits hnesting hdepth (fits_mono (by omega) (by omega) no) fitsNo⟩
  | call qualifier name index arguments =>
    rw [Fits] at h ⊢
    exact fitAll_mono hnesting hdepth arguments h
  | method target arguments =>
    rw [Fits] at h ⊢
    exact ⟨fits_mono hnesting hdepth target h.1, fitAll_mono hnesting (by omega) arguments h.2⟩
  | composite parts =>
    rw [Fits] at h ⊢
    exact fitParts_mono hnesting hdepth parts h

theorem fitAll_mono {nesting nesting' depth depth' : Nat} (hnesting : nesting' ≤ nesting)
    (hdepth : depth' ≤ depth) (xs : List Node) (h : FitAll nesting depth xs) :
    FitAll nesting' depth' xs := by
  cases xs with
  | nil => trivial
  | cons x xs =>
    rw [FitAll] at h ⊢
    exact ⟨FitsWithin.of_fits hnesting hdepth (fits_mono (by omega) (by omega) x) h.1,
      fitAll_mono hnesting hdepth xs h.2⟩

theorem fitParts_mono {nesting nesting' depth depth' : Nat} (hnesting : nesting' ≤ nesting)
    (hdepth : depth' ≤ depth) (xs : List Node) (h : FitParts nesting depth xs) :
    FitParts nesting' depth' xs := by
  cases xs with
  | nil => trivial
  | cons x xs =>
    rw [FitParts] at h ⊢
    exact ⟨fits_mono hnesting hdepth x h.1, fitParts_mono hnesting hdepth xs h.2⟩

end

end Node

namespace Grammar

open Node (Fits)

/-- Expressions that are one path down to a null literal, with null literals beside it. -/
inductive Spine (features : FeatureSet) : Phrase → Node → Prop
  | null : Spine features .primary nullNode
  | bracket {x : Node} (inner : Spine features .expression x) :
      Spine features .primary (.bracket x)
  | primary {x : Node} (primary : Spine features .primary x) : Spine features .value x
  | property {x : Node} (base : Spine features .value x) :
      Spine features .value (.property x "a" (!x.isLiteral))
  | method {x : Node} (target : Spine features .value x) (access : x.isAccess)
      (enabled : features.methodInvocations) : Spine features .value (.method x [])
  | value {x : Node} (value : Spine features .value x) : Spine features .unary x
  | operand {x : Node} (unary : Spine features .unary x) : Spine features (.chain 0) x
  | lift {x : Node} {tier : Nat} (lower : Spine features (.chain tier) x)
      (less : tier < BinaryOp.tiers) : Spine features (.chain (tier + 1)) x
  | binary {x : Node} {op : BinaryOp} (left : Spine features (.chain op.tier) x) :
      Spine features (.chain op.tier) (.binary op x nullNode)
  | condition {x : Node} (chain : Spine features (.chain BinaryOp.tiers) x) :
      Spine features .expression x
  | ternary {x : Node} (condition : Spine features (.chain BinaryOp.tiers) x) :
      Spine features .expression (.ternary x nullNode nullNode)

/-- A token that can be written down again inside a block. -/
def Writable (t : Token) : Prop :=
  t.kind ≠ .text ∧ Token.Regular t.kind t.image.toList

variable {features : FeatureSet} {phrase : Phrase} {ts rest : List Token} {x : Node}

/-- The tokens between which a phrase for the node can stand. -/
def Written (features : FeatureSet) (phrase : Phrase) (x : Node) : Prop :=
  ∀ rest, ∃ ts, (∀ t ∈ ts, Writable t) ∧ Derives features phrase (ts ++ rest) [x] rest

theorem writable_null : Writable ⟨.nullWord, "null", 0⟩ := ⟨nofun, trivial⟩

theorem writable_operator (op : BinaryOp) : Writable ⟨op.kind, op.spelling, 0⟩ := by
  cases op <;> exact ⟨nofun, trivial⟩

theorem writable_name : Writable ⟨.identifier, "a", 0⟩ :=
  ⟨nofun, 'a', [], rfl, by decide, nofun, rfl⟩

theorem Spine.written (h : Spine features phrase x) : Written features phrase x := by
  induction h with
  | null =>
    intro rest
    exact ⟨[⟨.nullWord, "null", 0⟩], List.forall_mem_singleton.mpr writable_null,
      derives_null rest⟩
  | bracket _ ih =>
    intro rest
    obtain ⟨ts, writable, derived⟩ := ih (⟨.rightParen, ")", 0⟩ :: rest)
    refine ⟨⟨.leftParen, "(", 0⟩ :: (ts ++ [⟨.rightParen, ")", 0⟩]), ?_, ?_⟩
    · rw [List.forall_mem_cons, List.forall_mem_append, List.forall_mem_singleton]
      exact ⟨⟨nofun, trivial⟩, writable, nofun, trivial⟩
    · rw [List.cons_append, List.append_assoc]
      exact .bracket rfl derived rfl
  | primary _ ih =>
    intro rest
    obtain ⟨ts, writable, derived⟩ := ih rest
    exact ⟨ts, writable, .primary derived⟩
  | property _ ih =>
    intro rest
    obtain ⟨ts, writable, derived⟩ := ih (⟨.dot, ".", 0⟩ :: ⟨.identifier, "a", 0⟩ :: rest)
    refine ⟨ts ++ [⟨.dot, ".", 0⟩, ⟨.identifier, "a", 0⟩], ?_, ?_⟩
    · rw [List.forall_mem_append, List.forall_mem_cons, List.forall_mem_singleton]
      exact ⟨writable, ⟨nofun, trivial⟩, writable_name⟩
    · rw [List.append_assoc]
      exact .property derived rfl rfl
  | method _ access enabled ih =>
    intro rest
    obtain ⟨ts, writable, derived⟩ := ih (⟨.leftParen, "(", 0⟩ :: ⟨.rightParen, ")", 0⟩ :: rest)
    refine ⟨ts ++ [⟨.leftParen, "(", 0⟩, ⟨.rightParen, ")", 0⟩], ?_, ?_⟩
    · rw [List.forall_mem_append, List.forall_mem_cons, List.forall_mem_singleton]
      exact ⟨writable, ⟨nofun, trivial⟩, nofun, trivial⟩
    · rw [List.append_assoc]
      exact .method derived access enabled (.noArguments rfl rfl)
  | value _ ih =>
    intro rest
    obtain ⟨ts, writable, derived⟩ := ih rest
    exact ⟨ts, writable, .value derived⟩
  | operand _ ih =>
    intro rest
    obtain ⟨ts, writable, derived⟩ := ih rest
    exact ⟨ts, writable, .operand derived⟩
  | lift _ _ ih =>
    intro rest
    obtain ⟨ts, writable, derived⟩ := ih rest
    exact ⟨ts, writable, .lift derived⟩
  | @binary _ op _ ih =>
    intro rest
    obtain ⟨tier, htier⟩ : ∃ tier, op.tier = tier + 1 := by
      cases op <;> exact ⟨_, rfl⟩
    obtain ⟨ts, writable, derived⟩ :=
      ih (⟨op.kind, op.spelling, 0⟩ :: ⟨.nullWord, "null", 0⟩ :: rest)
    refine ⟨ts ++ [⟨op.kind, op.spelling, 0⟩, ⟨.nullWord, "null", 0⟩], ?_, ?_⟩
    · rw [List.forall_mem_append, List.forall_mem_cons, List.forall_mem_singleton]
      exact ⟨writable, writable_operator op, writable_null⟩
    · rw [htier] at derived ⊢
      rw [List.append_assoc]
      exact .binary derived (BinaryOp.ofKind?_kind op) htier (chain_null rest tier)
  | condition _ ih =>
    intro rest
    obtain ⟨ts, writable, derived⟩ := ih rest
    exact ⟨ts, writable, .condition derived⟩
  | ternary _ ih =>
    intro rest
    obtain ⟨ts, writable, derived⟩ := ih (⟨.question, "?", 0⟩ :: ⟨.nullWord, "null", 0⟩ ::
      ⟨.colon, ":", 0⟩ :: ⟨.nullWord, "null", 0⟩ :: rest)
    refine ⟨ts ++ [⟨.question, "?", 0⟩, ⟨.nullWord, "null", 0⟩, ⟨.colon, ":", 0⟩,
      ⟨.nullWord, "null", 0⟩], ?_, ?_⟩
    · rw [List.forall_mem_append, List.forall_mem_cons, List.forall_mem_cons, List.forall_mem_cons,
        List.forall_mem_singleton]
      exact ⟨writable, ⟨nofun, trivial⟩, writable_null, ⟨nofun, trivial⟩, writable_null⟩
    · rw [List.append_assoc]
      exact .ternary derived rfl (expression_null _) rfl (expression_null _)

theorem Spine.legible (h : Spine features phrase x) : x.Legible := by
  have null : nullNode.Legible := Node.legible_literal _ |>.mpr rfl
  induction h with
  | null => exact null
  | bracket _ ih => exact Node.legible_bracket.mpr ih
  | property base ih =>
    refine (Node.legible_property _).mpr ⟨?_, ih⟩
    cases base with
    | primary primary => cases primary <;> rfl
    | _ => rfl
  | method _ _ _ ih => exact Node.legible_method.mpr ⟨ih, Node.legibleAll_nil.mpr trivial⟩
  | binary _ ih => exact (Node.legible_binary _).mpr ⟨ih, null⟩
  | ternary _ ih => exact Node.legible_ternary.mpr ⟨ih, null, null⟩
  | _ => assumption

theorem Spine.tier_le {tier : Nat} (h : Spine features (.chain tier) x) :
    tier ≤ BinaryOp.tiers := by
  cases h with
  | operand => exact Nat.zero_le _
  | lift _ less => exact less
  | @binary _ op _ => cases op <;> decide

/-- Every part of a path is an expression by itself. -/
theorem Spine.expression (h : Spine features phrase x) : Spine features .expression x := by
  have ofChain : ∀ k tier, tier + k = BinaryOp.tiers → Spine features (.chain tier) x →
      Spine features .expression x := by
    intro k
    induction k with
    | zero =>
      rintro tier rfl chain
      exact .condition chain
    | succ k ih =>
      intro tier same chain
      exact ih (tier + 1) (by omega) (.lift chain (by omega))
  have ofUnary : Spine features .unary x → Spine features .expression x :=
    fun unary => ofChain _ 0 (Nat.zero_add _) (.operand unary)
  cases phrase with
  | expression => exact h
  | chain tier => exact ofChain _ tier (Nat.add_sub_of_le h.tier_le) h
  | unary => exact ofUnary h
  | value => exact ofUnary (.value h)
  | primary => exact ofUnary (.value (.primary h))
  | arguments => nomatch h
  | further => nomatch h

/-- Below a node of the path that is not its end stands another one, one lower. -/
theorem Spine.exists_lower (h : Spine features phrase x) {nesting depth : Nat}
    (fits : x.Fits nesting depth) :
    x.height = 1 ∨
      ∃ y, Spine features .expression y ∧ y.Fits nesting depth ∧ x.height = y.height + 1 := by
  have beside : ∀ y : Node, max y.height nullNode.height = y.height :=
    fun y => Nat.max_eq_left y.height_pos
  induction h generalizing nesting depth with
  | null => exact .inl rfl
  | @bracket y inner _ =>
    obtain ⟨-, -, fitsInner⟩ : y.FitsWithin nesting depth := fits
    exact .inr ⟨y, inner, Node.fits_mono (Nat.le_succ _) (Nat.le_succ _) y fitsInner, rfl⟩
  | @property y base _ => exact .inr ⟨y, base.expression, fits.1, rfl⟩
  | @method y target _ _ _ =>
    exact .inr ⟨y, target.expression, fits.1, congrArg (· + 1) (Nat.max_zero y.height)⟩
  | @binary y _ left _ =>
    exact .inr ⟨y, left.expression, fits.1, congrArg (· + 1) (beside y)⟩
  | @ternary y condition _ =>
    refine .inr ⟨y, condition.expression, fits.1, ?_⟩
    show max y.height (max nullNode.height nullNode.height) + 1 = y.height + 1
    rw [Nat.max_self, beside]
  | lift _ _ ih => exact ih fits
  | _ _ ih => exact ih fits

/-- The path down from a node has an expression of every smaller height. -/
theorem Spine.exists_height (h : Spine features phrase x) {nesting depth : Nat}
    (fits : x.Fits nesting depth) {k : Nat} (positive : 0 < k) (small : k ≤ x.height) :
    ∃ y, Spine features .expression y ∧ y.Fits nesting depth ∧ y.height = k := by
  obtain ⟨high, hhigh⟩ : ∃ high, x.height = high := ⟨_, rfl⟩
  induction high generalizing x phrase with
  | zero => omega
  | succ high ih =>
    by_cases same : x.height = k
    · exact ⟨x, h.expression, fits, same⟩
    · rcases h.exists_lower fits with one | ⟨y, lower, fitsLower, hy⟩
      · omega
      · exact ih lower fitsLower (by omega) (by omega)

/-- The value with access steps on top, each of them called if calls are enabled. -/
def climb (features : FeatureSet) (x : Node) : Nat → Node
  | 0 => x
  | k + 1 =>
    let access := .property (climb features x k) "a" (!(climb features x k).isLiteral)
    if features.methodInvocations then .method access [] else access

/-- The operand with operators on top. -/
def pile (op : BinaryOp) (x : Node) : Nat → Node
  | 0 => x
  | k + 1 => .binary op (pile op x k) nullNode

/-- The primary with as many steps and operators of each tier on top. -/
def tiers (features : FeatureSet) (k : Nat) (x : Node) : Node :=
  pile .or (pile .and (pile .eq (pile .lt (pile .add (pile .mul (climb features x k) k) k) k) k)
    k) k

/-- The highest expression for the levels of nesting and of depth that are free. -/
def tower (features : FeatureSet) : Nat → Nat → Node
  | levels + 1, room + 1 =>
    .ternary (tiers features (room + 1) (.bracket (tower features levels room))) nullNode nullNode
  | _, room => tiers features room nullNode

variable {k nesting depth levels room : Nat} {op : BinaryOp}

theorem height_climb : (climb features x k).height = x.height + stepHeight features * k := by
  induction k with
  | zero => rfl
  | succ k ih =>
    rw [Nat.mul_succ, ← Nat.add_assoc, ← ih]
    simp only [climb, stepHeight]
    split
    · show max ((climb features x k).height + 1) 0 + 1 = _
      omega
    · rfl

theorem height_pile : (pile op x k).height = x.height + k := by
  induction k with
  | zero => rfl
  | succ k ih =>
    show max (pile op x k).height 1 + 1 = _
    have positive := x.height_pos
    omega

theorem height_tiers : (tiers features k x).height =
    (stepHeight features + BinaryOp.tiers) * k + x.height := by
  simp only [tiers, height_pile, height_climb, Nat.add_mul, BinaryOp.tiers]
  omega

theorem height_tower : (tower features levels room).height = heightWithin features levels room := by
  induction levels generalizing room with
  | zero => exact height_tiers
  | succ levels ih =>
    cases room with
    | zero => exact height_tiers
    | succ room =>
      have inner : (Node.bracket (tower features levels room)).height =
          heightWithin features levels room + 1 := congrArg (· + 1) ih
      show max (tiers features (room + 1) (.bracket (tower features levels room))).height
        (max 1 1) + 1 = _
      rw [height_tiers, inner, heightWithin]
      omega

theorem Spine.climb (h : Spine features .value x) (k : Nat) :
    Spine features .value (climb features x k) := by
  induction k with
  | zero => exact h
  | succ k ih =>
    rw [Grammar.climb]
    by_cases enabled : features.methodInvocations
    · rw [if_pos enabled]
      exact .method (.property ih) rfl enabled
    · rw [if_neg enabled]
      exact .property ih

theorem Spine.pile (h : Spine features (.chain op.tier) x) (k : Nat) :
    Spine features (.chain op.tier) (pile op x k) := by
  induction k with
  | zero => exact h
  | succ k ih => exact .binary ih

/-- The tiers of an operand are piled up one after the other, the tightest first. -/
theorem Spine.folds_eq {tier later : Nat} (h : Spine features (.chain tier) x)
    (less : tier < later) : x.folds later = 0 := by
  obtain ⟨_, -, derived⟩ := h.written []
  exact derived.folds_chain less

theorem fits_climb (fits : x.Fits nesting depth) (steps : x.steps = 0)
    (free : depth + k ≤ maxDepth) :
    (climb features x k).Fits nesting depth ∧ (climb features x k).steps = k := by
  induction k with
  | zero => exact ⟨fits, steps⟩
  | succ k ih =>
    obtain ⟨fitsBase, counted⟩ := ih (by omega)
    have access : (Node.property (climb features x k) "a"
        (!(climb features x k).isLiteral)).Fits nesting depth := by
      rw [Node.Fits]
      exact ⟨fitsBase, by omega⟩
    rw [climb]
    split
    · exact ⟨⟨access, trivial⟩, congrArg (· + 1) counted⟩
    · exact ⟨access, congrArg (· + 1) counted⟩

theorem fits_pile (fits : x.Fits nesting depth) (folds : x.folds op.tier = 0)
    (free : depth + k ≤ maxDepth) :
    (pile op x k).Fits nesting depth ∧ (pile op x k).folds op.tier = k := by
  induction k with
  | zero => exact ⟨fits, folds⟩
  | succ k ih =>
    obtain ⟨fitsLeft, counted⟩ := ih (by omega)
    rw [pile, Node.Fits, Node.folds, if_pos rfl, counted]
    exact ⟨⟨fitsLeft, by omega, trivial⟩, rfl⟩

theorem tiers_spec (h : Spine features .primary x) (fits : x.Fits nesting depth)
    (free : depth + k ≤ maxDepth) :
    Spine features (.chain BinaryOp.tiers) (tiers features k x) ∧
      (tiers features k x).Fits nesting depth := by
  have steps : x.steps = 0 := by
    obtain ⟨_, -, derived⟩ := h.written []
    exact derived.steps_primary
  have value := (Spine.primary h).climb k
  have onTop : ∀ (op : BinaryOp) {tier : Nat} {y : Node}, op.tier = tier + 1 →
      tier < BinaryOp.tiers → Spine features (.chain tier) y ∧ y.Fits nesting depth →
      Spine features (.chain (tier + 1)) (pile op y k) ∧ (pile op y k).Fits nesting depth := by
    rintro op tier y htier less ⟨chain, fitsOperand⟩
    have lifted := Spine.lift chain less
    have folds := chain.folds_eq (Nat.lt_add_one tier)
    rw [← htier] at lifted folds ⊢
    exact ⟨lifted.pile k, (fits_pile fitsOperand folds free).1⟩
  have operand : Spine features (.chain 0) (climb features x k) ∧
      (climb features x k).Fits nesting depth :=
    ⟨.operand (.value value), (fits_climb fits steps free).1⟩
  have mul := onTop .mul rfl (by decide) operand
  have add := onTop .add rfl (by decide) mul
  have lt := onTop .lt rfl (by decide) add
  have eq := onTop .eq rfl (by decide) lt
  have and := onTop .and rfl (by decide) eq
  exact onTop .or rfl (by decide) and

/-- A tower is an expression that uses up the levels that are free. -/
theorem tower_spec (free : Free nesting depth levels room) :
    Spine features .expression (tower features levels room) ∧
      (tower features levels room).Fits nesting depth := by
  have flat : ∀ {nesting depth room}, depth + room = maxDepth →
      Spine features .expression (tiers features room nullNode) ∧
        (tiers features room nullNode).Fits nesting depth := by
    intro nesting depth room depth_eq
    obtain ⟨chain, fits⟩ := tiers_spec .null trivial (Nat.le_of_eq depth_eq)
    exact ⟨.condition chain, fits⟩
  induction levels generalizing nesting depth room with
  | zero => exact flat free.depth_eq
  | succ levels ih =>
    cases room with
    | zero => exact flat free.depth_eq
    | succ room =>
      obtain ⟨nesting_eq, depth_eq⟩ := free
      have outer : nesting < maxNesting := by omega
      have shallow : depth < maxDepth := by omega
      obtain ⟨inner, fitsInner⟩ : _ ∧ (tower features levels room).Fits (nesting + 1) (depth + 1) :=
        ih ⟨by omega, by omega⟩
      have fitsBracket : (Node.bracket (tower features levels room)).Fits nesting depth := by
        rw [Node.Fits]
        exact ⟨outer, shallow, fitsInner⟩
      obtain ⟨chain, fits⟩ := tiers_spec (.bracket inner) fitsBracket (Nat.le_of_eq depth_eq)
      rw [tower, Node.Fits]
      exact ⟨.ternary chain, fits, ⟨outer, shallow, trivial⟩, outer, shallow, trivial⟩

/-- Every height up to the greatest one is the height of an expression that fits. -/
theorem exists_spine (free : Free nesting depth levels room) (positive : 0 < k)
    (small : k ≤ heightWithin features levels room) :
    ∃ x, Spine features .expression x ∧ x.Fits nesting depth ∧ x.height = k := by
  rw [← height_tower] at small
  obtain ⟨spine, fits⟩ : Spine features .expression (tower features levels room) ∧ _ :=
    tower_spec free
  exact spine.exists_height fits positive small

end Grammar

end ElTemplate
