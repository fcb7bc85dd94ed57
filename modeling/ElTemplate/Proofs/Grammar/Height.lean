import ElTemplate.Proofs.Grammar.Boundaries
import ElTemplate.Proofs.Node.Tree

/-!
# The height of expressions

The levels of a chain are given back when the chain is left, so they do not add up along the left
spine of a tree, where one chain stands below another. A tree can therefore be higher than the limit
on depth. How high depends on the levels that are still free where its expression begins: each of
the six tiers, and the access steps, can use up all free depth on top of the same operand, and a
parenthesis opens one more expression below that with one level less of each.
-/

namespace ElTemplate

namespace Grammar

open Node (heightAll FitAll)

/-- The nodes that one access step can put on top of a value: the access, and a call of it. -/
def stepHeight (features : FeatureSet) : Nat :=
  if features.methodInvocations then 2 else 1

/-- The greatest height of an expression, by the levels of nesting and of depth that are free. -/
def heightWithin (features : FeatureSet) : Nat → Nat → Nat
  | levels + 1, room + 1 =>
    (stepHeight features + BinaryOp.tiers) * (room + 1) + heightWithin features levels room + 2
  | _, room => (stepHeight features + BinaryOp.tiers) * room + 1

/-- The greatest height of a primary. -/
def primaryWithin (features : FeatureSet) : Nat → Nat → Nat
  | levels + 1, room + 1 => heightWithin features levels room + 1
  | _, _ => 1

/-- The greatest height of a chain of the first tiers. -/
def chainWithin (features : FeatureSet) (tier levels room : Nat) : Nat :=
  primaryWithin features levels room + stepHeight features * room + tier * room

variable {features : FeatureSet} {phrase : Phrase} {levels levels' room room' tier : Nat}
  {nesting depth : Nat} {ts rest : List Token} {nodes : List Node} {x : Node}

theorem stepHeight_pos (features : FeatureSet) : 0 < stepHeight features := by
  rw [stepHeight]
  split <;> omega

theorem heightWithin_mono (h : room ≤ room') :
    heightWithin features levels room ≤ heightWithin features levels room' := by
  induction levels generalizing room room' with
  | zero =>
    have product := Nat.mul_le_mul_left (stepHeight features + BinaryOp.tiers) h
    simp only [heightWithin]
    omega
  | succ levels ih =>
    have product := Nat.mul_le_mul_left (stepHeight features + BinaryOp.tiers) h
    cases room with
    | zero =>
      cases room' with
      | zero => exact Nat.le_refl _
      | succ room' =>
        simp only [heightWithin]
        omega
    | succ room =>
      cases room' with
      | zero => omega
      | succ room' =>
        have lower := ih (Nat.le_of_succ_le_succ h)
        simp only [heightWithin]
        omega

theorem primaryWithin_pos : 0 < primaryWithin features levels room := by
  cases levels <;> cases room <;> exact Nat.succ_pos _

theorem primaryWithin_mono (h : room ≤ room') :
    primaryWithin features levels room ≤ primaryWithin features levels room' := by
  cases levels with
  | zero => exact Nat.le_refl _
  | succ levels =>
    cases room with
    | zero => exact primaryWithin_pos
    | succ room =>
      cases room' with
      | zero => omega
      | succ room' => exact Nat.succ_le_succ (heightWithin_mono (Nat.le_of_succ_le_succ h))

theorem chainWithin_mono (h : room ≤ room') :
    chainWithin features tier levels room ≤ chainWithin features tier levels room' :=
  Nat.add_le_add (Nat.add_le_add (primaryWithin_mono h) (Nat.mul_le_mul_left _ h))
    (Nat.mul_le_mul_left _ h)

theorem chainWithin_mono_tier {tier' : Nat} (h : tier ≤ tier') :
    chainWithin features tier levels room ≤ chainWithin features tier' levels room :=
  Nat.add_le_add_left (Nat.mul_le_mul_right _ h) _

theorem chainWithin_succ : chainWithin features (tier + 1) levels room =
    chainWithin features tier levels room + room := by
  rw [chainWithin, chainWithin, Nat.succ_mul, ← Nat.add_assoc]

/-- A chain of all tiers is an expression, and leaves a level for a conditional if any is free. -/
theorem chainWithin_le : chainWithin features BinaryOp.tiers levels room ≤
    heightWithin features levels room := by
  cases levels <;> cases room <;> simp only [chainWithin, primaryWithin, heightWithin, Nat.add_mul]
    <;> omega

theorem chainWithin_lt (features : FeatureSet) (levels room : Nat) :
    chainWithin features BinaryOp.tiers (levels + 1) (room + 1) <
      heightWithin features (levels + 1) (room + 1) := by
  simp only [chainWithin, primaryWithin, heightWithin, Nat.add_mul]
  omega

/-- The levels that are free where this many are open. -/
structure Free (nesting depth levels room : Nat) : Prop where
  nesting_eq : nesting + levels = maxNesting
  depth_eq : depth + room = maxDepth

theorem Free.enter (free : Free nesting depth levels room) (outer : nesting < maxNesting)
    (shallow : depth < maxDepth) : ∃ levels' room', levels = levels' + 1 ∧ room = room' + 1 ∧
      Free (nesting + 1) (depth + 1) levels' room' := by
  obtain ⟨nesting_eq, depth_eq⟩ := free
  exact ⟨levels - 1, room - 1, by omega, by omega, by omega, by omega⟩

theorem Free.deeper (free : Free nesting depth levels room) {k : Nat}
    (fits : depth + k ≤ maxDepth) :
    ∃ room', room = room' + k ∧ Free nesting (depth + k) levels room' := by
  obtain ⟨nesting_eq, depth_eq⟩ := free
  exact ⟨room - k, by omega, nesting_eq, by omega⟩

/-- Whether the nodes of a phrase fit the limits. -/
def Phrase.Fit (nesting depth : Nat) : Phrase → List Node → Prop
  | arguments, xs => FitAll nesting depth xs
  | further, xs => FitAll nesting depth xs
  | _, x :: _ => x.Fits nesting depth
  | _, [] => True

/-- How high the nodes of a phrase can be. The levels of a chain's last tier and the steps of a
value count as far as they have been used. -/
def Phrase.Low (features : FeatureSet) (levels room : Nat) : Phrase → List Node → Prop
  | arguments, xs => heightAll xs < primaryWithin features levels room
  | further, xs => heightAll xs < primaryWithin features levels room
  | expression, x :: _ => x.height ≤ heightWithin features levels room
  | chain (tier + 1), x :: _ =>
    x.height ≤ chainWithin features tier levels room + x.folds (tier + 1)
  | value, x :: _ =>
    x.height + (if x.isAccess then stepHeight features - 1 else 0) ≤
      primaryWithin features levels room + stepHeight features * x.steps
  | primary, x :: _ => x.height ≤ primaryWithin features levels room
  | _, x :: _ => x.height ≤ chainWithin features 0 levels room
  | _, [] => True

/-- An expression that opens a level fits below a primary. -/
theorem lt_primaryWithin (free : Free nesting depth levels room)
    (fits : x.FitsWithin nesting depth)
    (low : ∀ {levels room}, Free (nesting + 1) (depth + 1) levels room →
      x.Fits (nesting + 1) (depth + 1) → x.height ≤ heightWithin features levels room) :
    x.height < primaryWithin features levels room := by
  obtain ⟨outer, shallow, fits⟩ := fits
  obtain ⟨levels, room, rfl, rfl, inner⟩ := free.enter outer shallow
  exact Nat.lt_succ_of_le (low inner fits)

/-- A chain is as low as the tiers below allow if its last tier has used all levels. -/
theorem Phrase.Low.chain (low : Phrase.Low features levels room (.chain tier) [x])
    (free : Free nesting depth levels room) (fits : x.Fits nesting depth) :
    x.height ≤ chainWithin features tier levels room := by
  cases tier with
  | zero => exact low
  | succ tier =>
    have used := fits.folds_le (by have := free.depth_eq; omega) (tier + 1)
    have depth_eq := free.depth_eq
    have bound : x.height ≤ chainWithin features tier levels room + x.folds (tier + 1) := low
    rw [chainWithin_succ]
    omega

theorem Phrase.Low.value (low : Phrase.Low features levels room .value [x])
    (free : Free nesting depth levels room) (fits : x.Fits nesting depth) :
    x.height ≤ chainWithin features 0 levels room := by
  have used := fits.steps_le (by have := free.depth_eq; omega)
  have depth_eq := free.depth_eq
  have bound : x.height + _ ≤ primaryWithin features levels room + stepHeight features * x.steps :=
    low
  have product : stepHeight features * x.steps ≤ stepHeight features * room :=
    Nat.mul_le_mul_left _ (by omega)
  rw [chainWithin]
  omega

/-- The branches of a conditional are nested, so that its own level is one of those they leave
free. -/
theorem ternary_low {c y n : Node} (free : Free nesting depth levels room)
    (fits : y.FitsWithin nesting depth)
    (condition : c.height ≤ chainWithin features BinaryOp.tiers levels room)
    (yes : y.height < primaryWithin features levels room)
    (no : n.height < primaryWithin features levels room) :
    Phrase.Low features levels room .expression [.ternary c y n] := by
  obtain ⟨levels, room, rfl, rfl, -⟩ := free.enter fits.1 fits.2.1
  have less := chainWithin_lt features levels room
  have most : primaryWithin features (levels + 1) (room + 1) ≤
      chainWithin features BinaryOp.tiers (levels + 1) (room + 1) := by
    rw [chainWithin]
    omega
  show max c.height (max y.height n.height) + 1 ≤ _
  omega

/-- One more fold is one more level of the chain, whichever operand is higher. -/
theorem binary_low {op : BinaryOp} {l r : Node} (htier : op.tier = tier + 1)
    (left : Phrase.Low features levels (room + (l.folds (tier + 1) + 1)) (.chain (tier + 1)) [l])
    (right : r.height ≤ chainWithin features tier levels room) :
    Phrase.Low features levels (room + (l.folds (tier + 1) + 1)) (.chain (tier + 1))
      [.binary op l r] := by
  have left : l.height ≤ chainWithin features tier levels (room + (l.folds (tier + 1) + 1)) +
      l.folds (tier + 1) := left
  have wider : chainWithin features tier levels room ≤
      chainWithin features tier levels (room + (l.folds (tier + 1) + 1)) :=
    chainWithin_mono (Nat.le_add_right _ _)
  show max l.height r.height + 1 ≤ _ + (Node.binary op l r).folds (tier + 1)
  rw [Node.folds, if_pos htier]
  omega

/-- A property keeps the level of a call of it free. -/
theorem property_low {base : Node} {name : String} {assignable : Bool}
    (low : Phrase.Low features levels room .value [base]) :
    Phrase.Low features levels room .value [.property base name assignable] := by
  have low : base.height + _ ≤ primaryWithin features levels room +
    stepHeight features * base.steps := low
  have positive := stepHeight_pos features
  show base.height + 1 + (stepHeight features - 1) ≤
    primaryWithin features levels room + stepHeight features * (base.steps + 1)
  rw [Nat.mul_succ]
  omega

theorem item_low {base key : Node} {assignable : Bool}
    (low : Phrase.Low features levels (room + base.steps) .value [base])
    (inner : key.height < primaryWithin features levels room) :
    Phrase.Low features levels (room + base.steps) .value [.item base key assignable] := by
  have low : base.height + _ ≤ primaryWithin features levels (room + base.steps) +
    stepHeight features * base.steps := low
  have wider : primaryWithin features levels room ≤
      primaryWithin features levels (room + base.steps) :=
    primaryWithin_mono (Nat.le_add_right _ _)
  have positive := stepHeight_pos features
  show max base.height key.height + 1 + (stepHeight features - 1) ≤
    primaryWithin features levels (room + base.steps) + stepHeight features * (base.steps + 1)
  rw [Nat.mul_succ]
  omega

/-- A call uses the level that its access has kept free. -/
theorem method_low {target : Node} {args : List Node} (access : target.isAccess)
    (enabled : features.methodInvocations)
    (low : Phrase.Low features levels (room + target.steps) .value [target])
    (inner : heightAll args < primaryWithin features levels room) :
    Phrase.Low features levels (room + target.steps) .value [.method target args] := by
  have wider : primaryWithin features levels room ≤
      primaryWithin features levels (room + target.steps) :=
    primaryWithin_mono (Nat.le_add_right _ _)
  simp only [Phrase.Low, access, if_true, stepHeight, enabled] at low
  show max target.height (heightAll args) + 1 + 0 ≤ _ + _ * target.steps
  simp only [stepHeight, enabled, if_true]
  omega

/-- The height of what is derived is bounded by the levels that are free. -/
theorem Derives.low (h : Derives features phrase ts nodes rest)
    (free : Free nesting depth levels room) (fit : phrase.Fit nesting depth nodes) :
    phrase.Low features levels room nodes := by
  induction h generalizing nesting depth levels room with
  | condition _ ih => exact Nat.le_trans ((ih free fit).chain free fit) chainWithin_le
  | @ternary _ _ _ _ _ _ c y n _ _ _ _ _ first second third =>
    obtain ⟨fitsCondition, fitsYes, fitsNo⟩ : Node.Fits nesting depth (.ternary c y n) := fit
    exact ternary_low free fitsYes ((first free fitsCondition).chain free fitsCondition)
      (lt_primaryWithin free fitsYes second) (lt_primaryWithin free fitsNo third)
  | operand _ ih => exact ih free fit
  | lift _ ih =>
    have low := (ih free fit).chain free fit
    exact Nat.le_trans low (Nat.le_add_right _ _)
  | @binary _ _ _ tier _ op l r _ _ htier _ first second =>
    obtain ⟨fitsLeft, less, fitsRight⟩ : Node.Fits nesting depth (.binary op l r) := fit
    rw [htier] at less fitsRight
    obtain ⟨room', rfl, free'⟩ := free.deeper (k := l.folds (tier + 1) + 1) less
    exact binary_low htier (first free fitsLeft) ((second free' fitsRight).chain free' fitsRight)
  | @unary _ _ _ op y _ _ ih =>
    have less : y.height < primaryWithin features levels room := by
      apply lt_primaryWithin free fit
      intro levels room free fits
      have chain : chainWithin features 0 levels room ≤
          chainWithin features BinaryOp.tiers levels room :=
        chainWithin_mono_tier (Nat.zero_le _)
      exact Nat.le_trans (ih free fits) (Nat.le_trans chain chainWithin_le)
    show y.height + 1 ≤ chainWithin features 0 levels room
    rw [chainWithin]
    omega
  | value _ ih => exact (ih free fit).value free fit
  | primary hprimary ih =>
    have low : Node.height _ ≤ primaryWithin features levels room := ih free fit
    show Node.height _ + (if Node.isAccess _ then _ else _) ≤ _
    rw [hprimary.isAccess_primary]
    simp only [Bool.false_eq_true, if_false]
    omega
  | property _ _ _ ih => exact property_low (ih free fit.1)
  | @item _ _ _ _ _ base key _ _ _ _ first second =>
    obtain ⟨fitsBase, fitsKey, less⟩ :
      Node.Fits nesting depth (.item base key (!base.isLiteral)) := fit
    obtain ⟨room', rfl, free'⟩ := free.deeper (Nat.le_of_lt less)
    exact item_low (first free fitsBase) (lt_primaryWithin free' fitsKey second)
  | @method _ _ _ target args _ access enabled _ first second =>
    obtain ⟨fitsTarget, fitsArguments⟩ : Node.Fits nesting depth (.method target args) := fit
    have used := fitsTarget.steps_le (by have := free.depth_eq; omega)
    obtain ⟨room', rfl, free'⟩ := free.deeper used
    exact method_low access enabled (first free fitsTarget) (second free' fitsArguments)
  | identifier => exact primaryWithin_pos
  | literal => exact primaryWithin_pos
  | call _ _ ih => exact ih free fit
  | qualifiedCall _ _ _ _ ih => exact ih free fit
  | bracket _ _ _ ih => exact lt_primaryWithin free fit ih
  | noArguments => exact primaryWithin_pos
  | arguments _ _ _ _ first second =>
    exact Nat.max_lt.mpr ⟨lt_primaryWithin free fit.1 first, second free fit.2⟩
  | noFurther => exact primaryWithin_pos
  | further _ _ _ first second =>
    exact Nat.max_lt.mpr ⟨lt_primaryWithin free fit.1 first, second free fit.2⟩

end Grammar

end ElTemplate
