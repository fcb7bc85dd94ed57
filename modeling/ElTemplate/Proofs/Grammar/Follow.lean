import ElTemplate.Proofs.Grammar.Boundaries

/-!
# What may follow a phrase

A derivation looks beyond its own tokens in one rule only: an identifier by itself does not qualify
a call. So the tokens behind a phrase may be changed, as long as the new ones turn no identifier
into a qualifier that was none before.
-/

namespace ElTemplate.Grammar

/-- Whether an identifier and a parenthesis are ahead. -/
def Calls (ts : List Token) : Prop :=
  kindOf ts = .identifier ∧ kindOf (ts.drop 1) = .leftParen

/-- The first tokens turn an identifier before them into a qualifier only if the second ones do,
whatever stands in between. -/
structure Admits (ts us : List Token) : Prop where
  qualifies : QualifiesCall ts → QualifiesCall us
  calls : Calls ts → Calls us
  paren : kindOf ts = .leftParen → kindOf us = .leftParen

/-- The tokens turn no identifier before them into a qualifier, whatever stands in between. -/
structure Neutral (ts : List Token) : Prop where
  qualifies : ¬ QualifiesCall ts
  calls : ¬ Calls ts
  paren : kindOf ts ≠ .leftParen

variable {features : FeatureSet} {phrase : Phrase} {ts us vs rest : List Token} {nodes : List Node}
  {t : Token}

theorem Admits.refl (ts : List Token) : Admits ts ts :=
  ⟨id, id, id⟩

theorem Admits.cons (h : Admits us vs) (t : Token) : Admits (t :: us) (t :: vs) where
  qualifies := fun ⟨colon, calls⟩ => ⟨colon, h.calls calls⟩
  calls := fun ⟨name, paren⟩ => ⟨name, h.paren paren⟩
  paren := id

theorem Admits.append (h : Admits us vs) (ts : List Token) : Admits (ts ++ us) (ts ++ vs) := by
  induction ts with
  | nil => exact h
  | cons t ts ih => exact ih.cons t

theorem Neutral.admits (h : Neutral us) (vs : List Token) : Admits us vs where
  qualifies := fun q => absurd q h.qualifies
  calls := fun c => absurd c h.calls
  paren := fun p => absurd p h.paren

/-- Only a colon, an identifier and a parenthesis can matter to what stands before them. -/
theorem neutral_of_kind (colon : kindOf us ≠ .colon) (name : kindOf us ≠ .identifier)
    (paren : kindOf us ≠ .leftParen) : Neutral us :=
  ⟨fun q => colon q.1, fun c => name c.1, paren⟩

/-- The tokens behind a phrase may be changed. -/
theorem Derives.retarget (h : Derives features phrase ts nodes rest) :
    ∃ us, ts = us ++ rest ∧ (phrase ≠ .further → us ≠ []) ∧
      ∀ vs, Admits vs rest → Derives features phrase (us ++ vs) nodes vs := by
  induction h with
  | condition _ ih =>
    obtain ⟨us, rfl, some, further⟩ := ih
    exact ⟨us, rfl, fun _ => some nofun, fun vs admits => .condition (further vs admits)⟩
  | @ternary _ _ _ rest question colon _ _ _ _ hquestion _ hcolon _ first second third =>
    obtain ⟨us, rfl, some, condition⟩ := first
    obtain ⟨us₁, rfl, -, yes⟩ := second
    obtain ⟨us₂, rfl, -, no⟩ := third
    refine ⟨us ++ question :: (us₁ ++ colon :: us₂), by simp, by simp, fun vs admits => ?_⟩
    have after := (admits.append us₂).cons colon
    simp only [List.append_assoc, List.cons_append]
    exact .ternary (condition _ ((after.append us₁).cons question)) hquestion (yes _ after) hcolon
      (no vs admits)
  | operand _ ih =>
    obtain ⟨us, rfl, some, further⟩ := ih
    exact ⟨us, rfl, fun _ => some nofun, fun vs admits => .operand (further vs admits)⟩
  | lift _ ih =>
    obtain ⟨us, rfl, some, further⟩ := ih
    exact ⟨us, rfl, fun _ => some nofun, fun vs admits => .lift (further vs admits)⟩
  | @binary _ _ _ _ operator _ _ _ _ hop htier _ first second =>
    obtain ⟨us, rfl, some, left⟩ := first
    obtain ⟨us₁, rfl, -, right⟩ := second
    refine ⟨us ++ operator :: us₁, by simp, by simp, fun vs admits => ?_⟩
    simp only [List.append_assoc, List.cons_append]
    exact .binary (left _ ((admits.append us₁).cons operator)) hop htier (right vs admits)
  | @unary _ _ operator _ _ hop _ ih =>
    obtain ⟨us, rfl, -, operand⟩ := ih
    exact ⟨operator :: us, rfl, fun _ => nofun, fun vs admits => .unary hop (operand vs admits)⟩
  | value _ ih =>
    obtain ⟨us, rfl, some, further⟩ := ih
    exact ⟨us, rfl, fun _ => some nofun, fun vs admits => .value (further vs admits)⟩
  | primary _ ih =>
    obtain ⟨us, rfl, some, further⟩ := ih
    exact ⟨us, rfl, fun _ => some nofun, fun vs admits => .primary (further vs admits)⟩
  | @property _ _ dot name _ _ hdot hname ih =>
    obtain ⟨us, rfl, -, value⟩ := ih
    refine ⟨us ++ [dot, name], by simp, by simp, fun vs admits => ?_⟩
    simp only [List.append_assoc, List.cons_append, List.nil_append]
    exact .property (value _ ((admits.cons name).cons dot)) hdot hname
  | @item _ _ _ opening closing _ _ _ hopening _ hclosing first second =>
    obtain ⟨us, rfl, -, value⟩ := first
    obtain ⟨us₁, rfl, -, index⟩ := second
    refine ⟨us ++ opening :: (us₁ ++ [closing]), by simp, by simp, fun vs admits => ?_⟩
    have after := admits.cons closing
    simp only [List.append_assoc, List.cons_append, List.nil_append]
    exact .item (value _ ((after.append us₁).cons opening)) hopening (index _ after) hclosing
  | method _ access enabled _ first second =>
    obtain ⟨us, rfl, some, value⟩ := first
    obtain ⟨us₁, rfl, -, arguments⟩ := second
    refine ⟨us ++ us₁, by simp, by simp [some], fun vs admits => ?_⟩
    rw [List.append_assoc]
    exact .method (value _ (admits.append us₁)) access enabled (arguments vs admits)
  | @identifier _ name hname alone =>
    exact ⟨[name], rfl, fun _ => nofun, fun vs admits =>
      .identifier hname fun qualifies => alone (admits.qualifies qualifies)⟩
  | @call _ _ name _ hname _ ih =>
    obtain ⟨us, rfl, -, arguments⟩ := ih
    exact ⟨name :: us, rfl, fun _ => nofun, fun vs admits => .call hname (arguments vs admits)⟩
  | @qualifiedCall _ _ qualifier colon name _ hqualifier hcolon hname _ ih =>
    obtain ⟨us, rfl, -, arguments⟩ := ih
    exact ⟨qualifier :: colon :: name :: us, rfl, fun _ => nofun, fun vs admits =>
      .qualifiedCall hqualifier hcolon hname (arguments vs admits)⟩
  | @bracket _ _ opening closing _ hopening _ hclosing ih =>
    obtain ⟨us, rfl, -, inner⟩ := ih
    refine ⟨opening :: (us ++ [closing]), by simp, by simp, fun vs admits => ?_⟩
    simp only [List.append_assoc, List.cons_append, List.nil_append]
    exact .bracket hopening (inner _ (admits.cons closing)) hclosing
  | @literal _ t _ hvalue =>
    exact ⟨[t], rfl, fun _ => nofun, fun vs _ => .literal hvalue⟩
  | @noArguments _ opening closing hopening hclosing =>
    exact ⟨[opening, closing], rfl, fun _ => nofun, fun vs _ => .noArguments hopening hclosing⟩
  | @arguments _ _ _ opening closing _ _ hopening _ _ hclosing first second =>
    obtain ⟨us, rfl, -, head⟩ := first
    obtain ⟨us₁, rfl, -, tail⟩ := second
    refine ⟨opening :: (us ++ (us₁ ++ [closing])), by simp, by simp, fun vs admits => ?_⟩
    have after := admits.cons closing
    simp only [List.append_assoc, List.cons_append, List.nil_append]
    exact .arguments hopening (head _ (after.append us₁)) (tail _ after) hclosing
  | noFurther => exact ⟨[], rfl, fun h => absurd rfl h, fun _ _ => .noFurther⟩
  | @further _ _ _ comma _ _ hcomma _ _ first second =>
    obtain ⟨us, rfl, -, head⟩ := first
    obtain ⟨us₁, rfl, -, tail⟩ := second
    refine ⟨comma :: (us ++ us₁), by simp, by simp, fun vs admits => ?_⟩
    simp only [List.append_assoc, List.cons_append]
    exact .further hcomma (head _ (admits.append us₁)) (tail vs admits)

end ElTemplate.Grammar
