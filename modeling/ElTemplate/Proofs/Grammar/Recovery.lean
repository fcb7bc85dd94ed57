import ElTemplate.Proofs.Grammar.Canonical
import ElTemplate.Proofs.Token.Decoding

/-!
# Phrases from their canonical text

The canonical text of a phrase is decoded as tokens that derive the phrase again, up to variables
called `Infinity`: those become the infinite number, because both are spelled the same. The tokens
have the kinds of the original ones but for these variables, so that no identifier becomes the
qualifier of a call by what is behind it.
-/

namespace ElTemplate

/-- The token that `t` is decoded as may be `u`: a variable can become a number. -/
def Token.Kindred (t u : Token) : Prop :=
  u.kind = t.kind ∨ (t.kind = .identifier ∧ u.kind = .float)

theorem Token.Kindred.of_kind {t : Token} {kind : Token.Kind} {image : String} {position : Nat}
    (h : t.kind = kind) : t.Kindred ⟨kind, image, position⟩ :=
  .inl h.symm

namespace Grammar

open Node (inlineAll)
open Lexeme (Breaks)
open Token (Kindred)

variable {features : FeatureSet} {phrase : Phrase} {ts ts₁ ts₂ us rest : List Token}
  {nodes args : List Node} {x y z : Node} {c : Char} {f : List Char} {p : Prop}

theorem kindOf_kindred (h : List.Forall₂ Kindred ts us) :
    kindOf us = kindOf ts ∨ (kindOf ts = .identifier ∧ kindOf us = .float) := by
  cases h with
  | nil => exact .inl rfl
  | cons kindred _ => exact kindred

theorem qualifiesCall_of_kindred (h : List.Forall₂ Kindred ts us) (call : QualifiesCall us) :
    QualifiesCall ts := by
  -- What has become a float is no part of a qualified call.
  have kept : ∀ n {k}, kindOf (us.drop n) = k → k ≠ .float → kindOf (ts.drop n) = k := by
    intro n k found other
    rcases kindOf_kindred (List.forall₂_drop n h) with same | ⟨-, float⟩
    · exact same.symm.trans found
    · exact absurd (found.symm.trans float) other
  obtain ⟨colon, name, paren⟩ := call
  exact ⟨kept 0 colon nofun, kept 1 name nofun, kept 2 paren nofun⟩

/-- The text of the phrase is decoded as tokens that derive the phrase again, with the infinite
number in place of the variables with its name, whatever kindred tokens are left over. -/
def Recovered (features : FeatureSet) (phrase : Phrase) (ts : List Token) (nodes : List Node)
    (rest : List Token) : Prop :=
  ∃ vs, (∀ f, Closes (nodes.all Node.isAccess) f →
      Decodes .block (phrase.chars nodes ++ f) vs .block f) ∧
    ∀ rest', List.Forall₂ Kindred rest rest' → List.Forall₂ Kindred ts (vs ++ rest') ∧
      Derives features phrase (vs ++ rest') (inlineAll .infinity nodes) rest'

namespace Recovered

/-- What every derivation of a phrase gives, another phrase with the same text can be. -/
theorem weaken {phrase' : Phrase} (h : Recovered features phrase ts nodes rest)
    (chars : phrase'.chars nodes = phrase.chars nodes)
    (rule : ∀ us rest', Derives features phrase us (inlineAll .infinity nodes) rest' →
      Derives features phrase' us (inlineAll .infinity nodes) rest') :
    Recovered features phrase' ts nodes rest := by
  obtain ⟨vs, decodes, derives⟩ := h
  refine ⟨vs, chars ▸ decodes, fun rest' kin => ?_⟩
  obtain ⟨kin, derived⟩ := derives rest' kin
  exact ⟨kin, rule _ rest' derived⟩

theorem ternary {question colon : Token}
    (condition : Recovered features (.chain BinaryOp.tiers) ts [x] (question :: ts₁))
    (hquestion : question.kind = .question)
    (yes : Recovered features .expression ts₁ [y] (colon :: ts₂)) (hcolon : colon.kind = .colon)
    (no : Recovered features .expression ts₂ [z] rest) :
    Recovered features .expression ts [.ternary x y z] rest := by
  obtain ⟨us, first, condition⟩ := condition
  obtain ⟨vs, second, yes⟩ := yes
  obtain ⟨ws, third, no⟩ := no
  refine ⟨us ++ ⟨.question, "?", 0⟩ :: (vs ++ ⟨.colon, ":", 0⟩ :: ws), ?_, ?_⟩
  · intro f closes
    have last := (third f (closes.imp nofun)).blank
    have colon := (last.mark (c := ':') (k := .colon) (by decide)).blank
    have middle := ((second _ (.of_mem (by decide))).append colon).blank
    have question := (middle.mark (c := '?') (k := .question) (by decide)).blank
    have all := (first _ (.of_mem (by decide))).append question
    show Decodes .block ((Node.ternary x y z).chars ++ f) _ .block f
    simp only [Node.chars_ternary, List.append_assoc, List.cons_append]
    exact all
  · intro rest' kin
    obtain ⟨kin, no⟩ := no rest' kin
    obtain ⟨kin, yes⟩ := yes _ (.cons (Kindred.of_kind hcolon) kin)
    obtain ⟨kin, condition⟩ := condition _ (.cons (Kindred.of_kind hquestion) kin)
    simp only [List.append_assoc, List.cons_append]
    exact ⟨kin, .ternary condition rfl yes rfl no⟩

theorem binary {tier : Nat} {operator : Token} {op : BinaryOp}
    (left : Recovered features (.chain (tier + 1)) ts [x] (operator :: ts₁))
    (hop : BinaryOp.ofKind? operator.kind = some op) (htier : op.tier = tier + 1)
    (right : Recovered features (.chain tier) ts₁ [y] rest) :
    Recovered features (.chain (tier + 1)) ts [.binary op x y] rest := by
  obtain ⟨us, first, left⟩ := left
  obtain ⟨vs, second, right⟩ := right
  refine ⟨us ++ ⟨op.kind, op.spelling, 0⟩ :: vs, ?_, ?_⟩
  · intro f closes
    have last := (second f (closes.imp nofun)).blank
    have operator := ((Decodes.binary op).append last).blank
    have all := (first _ (.of_mem (by decide))).append operator
    show Decodes .block ((Node.binary op x y).chars ++ f) _ .block f
    simp only [Node.chars_binary, List.append_assoc, List.cons_append]
    exact all
  · intro rest' kin
    obtain ⟨kin, right⟩ := right rest' kin
    obtain ⟨kin, left⟩ := left _ (.cons (Kindred.of_kind (BinaryOp.eq_kind hop)) kin)
    simp only [List.append_assoc, List.cons_append]
    exact ⟨kin, .binary left (BinaryOp.ofKind?_kind op) htier right⟩

theorem unary {operator : Token} {op : UnaryOp}
    (hop : UnaryOp.ofKind? operator.kind = some op)
    (operand : Recovered features .unary ts [x] rest) :
    Recovered features .unary (operator :: ts) [.unary op x] rest := by
  obtain ⟨us, decodes, operand⟩ := operand
  refine ⟨⟨op.kind, op.spelling, 0⟩ :: us, ?_, ?_⟩
  · intro f closes
    have all := (Decodes.unary op).append (decodes f (closes.imp nofun)).blank
    show Decodes .block ((Node.unary op x).chars ++ f) _ .block f
    simp only [Node.chars_unary, List.append_assoc, List.cons_append]
    exact all
  · intro rest' kin
    obtain ⟨kin, operand⟩ := operand rest' kin
    have same := UnaryOp.eq_kind hop
    rw [same] at hop
    exact ⟨.cons (Kindred.of_kind same) kin, .unary hop operand⟩

theorem property {dot name : Token} (base : Recovered features .value ts [x] (dot :: name :: rest))
    (hdot : dot.kind = .dot) (hname : name.kind = .identifier)
    (regular : Token.Regular .identifier name.image.toList) (assignable : Bool) :
    Recovered features .value ts [.property x name.image assignable] rest := by
  obtain ⟨us, decodes, base⟩ := base
  refine ⟨us ++ [⟨.dot, ".", 0⟩, ⟨.identifier, name.image, 0⟩], ?_, ?_⟩
  · intro f closes
    have ends : Closes ([x].all Node.isAccess) ('.' :: name.image.toList ++ f) := by
      refine ⟨⟨'.', _, rfl, by decide⟩, nofun, nofun, ?_⟩
      rintro _ ⟨rfl⟩
      exact head?_of_regular regular
    have all := (decodes _ ends).append (Decodes.property regular closes.breaks)
    show Decodes .block ((Node.property x name.image assignable).chars ++ f) _ .block f
    simp only [Node.chars_property, List.append_assoc]
    exact all
  · intro rest' kin
    obtain ⟨kin, base⟩ := base _ (.cons (Kindred.of_kind hdot) (.cons (Kindred.of_kind hname) kin))
    have derived := Derives.property base rfl rfl
    simp only [List.append_assoc, List.cons_append, List.nil_append]
    exact ⟨kin, derived⟩

theorem item {opening closing : Token} (base : Recovered features .value ts [x] (opening :: ts₁))
    (hopening : opening.kind = .leftBracket)
    (key : Recovered features .expression ts₁ [y] (closing :: rest))
    (hclosing : closing.kind = .rightBracket) (assignable : Bool) :
    Recovered features .value ts [.item x y assignable] rest := by
  obtain ⟨us, first, base⟩ := base
  obtain ⟨vs, second, key⟩ := key
  refine ⟨us ++ ⟨.leftBracket, "[", 0⟩ :: (vs ++ [⟨.rightBracket, "]", 0⟩]), ?_, ?_⟩
  · intro f _
    have last : Decodes .block (']' :: f) [⟨.rightBracket, "]", 0⟩] .block f :=
      .mark (by decide) .nil
    have inner := (second _ (.of_mem (by decide))).append last
    have all := (first _ (.of_mem (by decide))).append
      (inner.mark (c := '[') (k := .leftBracket) (by decide))
    show Decodes .block ((Node.item x y assignable).chars ++ f) _ .block f
    simp only [Node.chars_item, List.append_assoc, List.cons_append, List.nil_append]
    exact all
  · intro rest' kin
    obtain ⟨kin, key⟩ := key _ (.cons (Kindred.of_kind hclosing) kin)
    obtain ⟨kin, base⟩ := base _ (.cons (Kindred.of_kind hopening) kin)
    simp only [List.append_assoc, List.cons_append, List.nil_append]
    exact ⟨kin, .item base rfl key rfl⟩

theorem method (target : Recovered features .value ts [x] ts₁) (access : x.isAccess)
    (enabled : features.methodInvocations)
    (arguments : Recovered features .arguments ts₁ args rest) :
    Recovered features .value ts [.method x args] rest := by
  obtain ⟨us, first, target⟩ := target
  obtain ⟨vs, second, arguments⟩ := arguments
  refine ⟨us ++ vs, ?_, ?_⟩
  · intro f closes
    have ends : Closes ([x].all Node.isAccess)
        ('(' :: (Node.charsArguments args ++ [')']) ++ f) := by
      refine ⟨⟨'(', _, rfl, by decide⟩, nofun, fun _ => ?_, nofun⟩
      rw [List.all_cons, access]
      rfl
    have all := (first _ ends).append (second f (closes.imp nofun))
    show Decodes .block ((Node.method x args).chars ++ f) _ .block f
    simp only [Node.chars_method, List.append_assoc]
    exact all
  · intro rest' kin
    obtain ⟨kin, arguments⟩ := arguments rest' kin
    obtain ⟨kin, target⟩ := target _ kin
    rw [List.append_assoc]
    exact ⟨kin, .method target ((Node.isAccess_inline _ x).trans access) enabled arguments⟩

/-- Of a variable called `Infinity` the number is left. -/
theorem identifier {name : Token} (hname : name.kind = .identifier)
    (alone : ¬ QualifiesCall rest) (regular : Token.Regular .identifier name.image.toList) :
    Recovered features .primary (name :: rest) [.identifier name.image 0] rest := by
  by_cases infinite : name.image = "Infinity"
  · refine ⟨[Decoding.infinity], ?_, ?_⟩
    · intro f closes
      show Decodes .block ((Node.identifier name.image 0).chars ++ f) _ .block f
      rw [Node.chars_identifier, infinite]
      exact .infinity closes.breaks (fun same => absurd (closes.paren same) nofun) closes.colon
    · intro rest' kin
      rw [infinite]
      exact ⟨.cons (.inr ⟨hname, rfl⟩) kin, .literal rfl⟩
  · refine ⟨[⟨.identifier, name.image, 0⟩], ?_, ?_⟩
    · intro f closes
      show Decodes .block ((Node.identifier name.image 0).chars ++ f) _ .block f
      rw [Node.chars_identifier]
      exact .identifier regular closes.breaks fun same => absurd same infinite
    · intro rest' kin
      have same : (Node.identifier name.image 0).inline .infinity = .identifier name.image 0 := by
        simp [Node.inline, Constants.infinity, infinite]
      rw [Node.inlineAll, same]
      exact ⟨.cons (Kindred.of_kind hname) kin,
        .identifier rfl fun call => alone (qualifiesCall_of_kindred kin call)⟩

theorem call {name : Token} (hname : name.kind = .identifier)
    (regular : Token.Regular .identifier name.image.toList)
    (arguments : Recovered features .arguments ts args rest) :
    Recovered features .primary (name :: ts) [.call none name.image 0 args] rest := by
  obtain ⟨us, decodes, arguments⟩ := arguments
  refine ⟨⟨.identifier, name.image, 0⟩ :: us, ?_, ?_⟩
  · intro f closes
    have breaks : Breaks ('(' :: (Node.charsArguments args ++ [')']) ++ f) :=
      ⟨'(', _, rfl, by decide⟩
    have all := (Decodes.identifier regular breaks fun _ => .inl rfl).append
      (decodes f (closes.imp nofun))
    show Decodes .block ((Node.call none name.image 0 args).chars ++ f) _ .block f
    simp only [Node.chars_call, List.append_assoc]
    exact all
  · intro rest' kin
    obtain ⟨kin, arguments⟩ := arguments rest' kin
    exact ⟨.cons (Kindred.of_kind hname) kin, .call rfl arguments⟩

theorem qualifiedCall {qualifier colon name : Token} (hqualifier : qualifier.kind = .identifier)
    (regularQualifier : Token.Regular .identifier qualifier.image.toList)
    (hcolon : colon.kind = .colon) (hname : name.kind = .identifier)
    (regular : Token.Regular .identifier name.image.toList)
    (arguments : Recovered features .arguments ts args rest) :
    Recovered features .primary (qualifier :: colon :: name :: ts)
      [.call (some qualifier.image) name.image 0 args] rest := by
  obtain ⟨us, decodes, arguments⟩ := arguments
  refine ⟨⟨.identifier, qualifier.image, 0⟩ :: ⟨.colon, ":", 0⟩ ::
    ⟨.identifier, name.image, 0⟩ :: us, ?_, ?_⟩
  · intro f closes
    have breaks : Breaks ('(' :: (Node.charsArguments args ++ [')']) ++ f) :=
      ⟨'(', _, rfl, by decide⟩
    have called := (Decodes.identifier regular breaks fun _ => .inl rfl).append
      (decodes f (closes.imp nofun))
    have marked := called.mark (c := ':') (k := .colon) (by decide)
    have all := (Decodes.identifier regularQualifier ⟨':', _, rfl, by decide⟩
      fun _ => .inr rfl).append marked
    show Decodes .block ((Node.call (some qualifier.image) name.image 0 args).chars ++ f) _
      .block f
    simp only [Node.chars_qualifiedCall, List.append_assoc, List.cons_append] at all ⊢
    exact all
  · intro rest' kin
    obtain ⟨kin, arguments⟩ := arguments rest' kin
    exact ⟨.cons (Kindred.of_kind hqualifier) (.cons (Kindred.of_kind hcolon)
      (.cons (Kindred.of_kind hname) kin)), .qualifiedCall rfl rfl rfl arguments⟩

theorem bracket {opening closing : Token} (hopening : opening.kind = .leftParen)
    (inner : Recovered features .expression ts [x] (closing :: rest))
    (hclosing : closing.kind = .rightParen) :
    Recovered features .primary (opening :: ts) [.bracket x] rest := by
  obtain ⟨us, decodes, inner⟩ := inner
  refine ⟨⟨.leftParen, "(", 0⟩ :: (us ++ [⟨.rightParen, ")", 0⟩]), ?_, ?_⟩
  · intro f _
    have inner := (decodes _ (.of_mem (by decide))).append (.closing f)
    have all := inner.mark (c := '(') (k := .leftParen) (by decide)
    show Decodes .block ((Node.bracket x).chars ++ f) _ .block f
    simp only [Node.chars_bracket, List.append_assoc, List.cons_append, List.nil_append]
    exact all
  · intro rest' kin
    obtain ⟨kin, inner⟩ := inner _ (.cons (Kindred.of_kind hclosing) kin)
    simp only [List.append_assoc, List.cons_append, List.nil_append]
    exact ⟨.cons (Kindred.of_kind hopening) kin, .bracket rfl inner rfl⟩

theorem literal {t : Token} {value : Literal} (hvalue : Literal.ofToken? t = some (.ok value))
    (regular : Token.Regular t.kind t.image.toList) :
    Recovered features .primary (t :: rest) [.literal value] rest := by
  obtain ⟨u, same, found, decodes⟩ := Decodes.literal hvalue regular
  refine ⟨[u], ?_, fun rest' kin => ⟨.cons (.inl same) kin, .literal found⟩⟩
  intro f closes
  show Decodes .block ((Node.literal value).chars ++ f) _ .block f
  rw [Node.chars_literal]
  exact decodes f (closes.imp nofun)

theorem noArguments {opening closing : Token} (hopening : opening.kind = .leftParen)
    (hclosing : closing.kind = .rightParen) :
    Recovered features .arguments (opening :: closing :: rest) [] rest := by
  refine ⟨[⟨.leftParen, "(", 0⟩, ⟨.rightParen, ")", 0⟩], ?_, ?_⟩
  · intro f _
    exact (Decodes.closing f).mark (c := '(') (k := .leftParen) (by decide)
  · intro rest' kin
    exact ⟨.cons (Kindred.of_kind hopening) (.cons (Kindred.of_kind hclosing) kin),
      .noArguments rfl rfl⟩

/-- Behind an argument further ones follow, or what is behind all of them. -/
theorem closes_further (closes : Closes p f) : Closes p (Node.charsFurther args ++ f) := by
  cases args with
  | nil => exact closes
  | cons y args =>
    rw [Node.charsFurther_cons]
    exact .of_mem (by decide)

theorem arguments {opening closing : Token} (hopening : opening.kind = .leftParen)
    (argument : Recovered features .expression ts [x] ts₁)
    (more : Recovered features .further ts₁ args (closing :: rest))
    (hclosing : closing.kind = .rightParen) :
    Recovered features .arguments (opening :: ts) (x :: args) rest := by
  obtain ⟨us, first, argument⟩ := argument
  obtain ⟨vs, second, more⟩ := more
  refine ⟨⟨.leftParen, "(", 0⟩ :: (us ++ (vs ++ [⟨.rightParen, ")", 0⟩])), ?_, ?_⟩
  · intro f _
    have further := (second _ (.of_mem (by decide))).append (.closing f)
    have inner := (first _ (closes_further (.of_mem (by decide)))).append further
    have all := inner.mark (c := '(') (k := .leftParen) (by decide)
    show Decodes .block ('(' :: (Node.charsArguments (x :: args) ++ [')']) ++ f) _ .block f
    simp only [Node.charsArguments_cons, List.append_assoc, List.cons_append, List.nil_append]
    exact all
  · intro rest' kin
    obtain ⟨kin, more⟩ := more _ (.cons (Kindred.of_kind hclosing) kin)
    obtain ⟨kin, argument⟩ := argument _ kin
    simp only [List.append_assoc, List.cons_append, List.nil_append]
    exact ⟨.cons (Kindred.of_kind hopening) kin, .arguments rfl argument more rfl⟩

theorem noFurther : Recovered features .further rest [] rest :=
  ⟨[], fun _ _ => .nil, fun _ kin => ⟨kin, .noFurther⟩⟩

theorem further {comma : Token} (hcomma : comma.kind = .comma)
    (argument : Recovered features .expression ts [x] ts₁)
    (more : Recovered features .further ts₁ args rest) :
    Recovered features .further (comma :: ts) (x :: args) rest := by
  obtain ⟨us, first, argument⟩ := argument
  obtain ⟨vs, second, more⟩ := more
  refine ⟨⟨.comma, ",", 0⟩ :: (us ++ vs), ?_, ?_⟩
  · intro f closes
    have accesses : (x :: args).all Node.isAccess → x.isAccess ∧ args.all Node.isAccess := by
      simp
    have last := second f (closes.imp fun all => (accesses all).2)
    have inner := (first _ (closes_further (closes.imp fun all => ?_))).append last
    · have all := inner.blank.mark (c := ',') (k := .comma) (by decide)
      show Decodes .block (Node.charsFurther (x :: args) ++ f) _ .block f
      simp only [Node.charsFurther_cons, List.append_assoc, List.cons_append]
      exact all
    · simp [(accesses all).1]
  · intro rest' kin
    obtain ⟨kin, more⟩ := more rest' kin
    obtain ⟨kin, argument⟩ := argument _ kin
    simp only [List.append_assoc, List.cons_append]
    exact ⟨.cons (Kindred.of_kind hcomma) kin, .further rfl argument more⟩

end Recovered

/-- Tokens that a scanner can have given. -/
def AllRegular (ts : List Token) : Prop :=
  ∀ t ∈ ts, Token.Regular t.kind t.image.toList

theorem AllRegular.tail {t : Token} (h : AllRegular (t :: ts)) : AllRegular ts :=
  fun u hu => h u (List.mem_cons_of_mem t hu)

theorem AllRegular.suffix (h : AllRegular ts) (behind : us <:+ ts) : AllRegular us :=
  fun u hu => h u (behind.mem hu)

theorem AllRegular.identifier {t : Token} (h : AllRegular (t :: ts)) (name : t.kind = .identifier) :
    Token.Regular .identifier t.image.toList :=
  regular_identifier name (h t (List.mem_cons_self ..))

/-- A derived phrase is recovered from its canonical text. -/
theorem Derives.recovered (h : Derives features phrase ts nodes rest) (regular : AllRegular ts) :
    Recovered features phrase ts nodes rest := by
  induction h with
  | condition _ ih => exact (ih regular).weaken rfl fun _ _ => .condition
  | ternary condition hquestion yes hcolon _ first second third =>
    have regularYes := (regular.suffix condition.suffix).tail
    have regularNo := (regularYes.suffix yes.suffix).tail
    exact (first regular).ternary hquestion (second regularYes) hcolon (third regularNo)
  | operand _ ih => exact (ih regular).weaken rfl fun _ _ => .operand
  | lift _ ih => exact (ih regular).weaken rfl fun _ _ => .lift
  | binary left hop htier _ first second =>
    have regularRight := (regular.suffix left.suffix).tail
    exact (first regular).binary hop htier (second regularRight)
  | unary hop _ ih => exact (ih regular.tail).unary hop
  | value _ ih => exact (ih regular).weaken rfl fun _ _ => .value
  | primary _ ih => exact (ih regular).weaken rfl fun _ _ => .primary
  | property base hdot hname ih =>
    have named := (regular.suffix base.suffix).tail.identifier hname
    exact (ih regular).property hdot hname named _
  | item base hopening _ hclosing first second =>
    have regularKey := (regular.suffix base.suffix).tail
    exact (first regular).item hopening (second regularKey) hclosing _
  | method target access enabled _ first second =>
    have regularArguments := regular.suffix target.suffix
    exact (first regular).method access enabled (second regularArguments)
  | identifier hname alone => exact .identifier hname alone (regular.identifier hname)
  | call hname _ ih => exact .call hname (regular.identifier hname) (ih regular.tail)
  | qualifiedCall hqualifier hcolon hname _ ih =>
    exact .qualifiedCall hqualifier (regular.identifier hqualifier) hcolon hname
      (regular.tail.tail.identifier hname) (ih regular.tail.tail.tail)
  | bracket hopening _ hclosing ih => exact .bracket hopening (ih regular.tail) hclosing
  | literal hvalue => exact .literal hvalue (regular _ (List.mem_cons_self ..))
  | noArguments hopening hclosing => exact .noArguments hopening hclosing
  | arguments hopening argument _ hclosing first second =>
    have regularMore := regular.tail.suffix argument.suffix
    exact .arguments hopening (first regular.tail) (second regularMore) hclosing
  | noFurther => exact .noFurther
  | further hcomma argument _ first second =>
    have regularMore := regular.tail.suffix argument.suffix
    exact .further hcomma (first regular.tail) (second regularMore)

/-- Derived trees say of an access whether it can be assigned to as it follows from the tree. -/
theorem Derives.inlineAll_none (h : Derives features phrase ts nodes rest) :
    inlineAll .none nodes = nodes := by
  induction h with
  | _ => simp_all [inlineAll, Node.inline, Constants.none]

end Grammar

end ElTemplate
