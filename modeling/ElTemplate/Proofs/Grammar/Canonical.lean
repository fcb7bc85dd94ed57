import ElTemplate.Proofs.Grammar.Alike
import ElTemplate.Proofs.Node.Canonical
import ElTemplate.Proofs.Token.Canonical

/-!
# Canonical text of phrases

The canonical text of a phrase is scanned as tokens like those the phrase was derived from, if its
nodes are legible, and goes wrong otherwise. What stands behind the phrase matters twice: it has to
end the last token, and behind digits it must not be a point that they take along.
-/

namespace ElTemplate

/-- Whether the node, if it is a literal, stays apart from the text behind it. -/
def Node.Apart (f : List Char) : Node → Prop
  | literal value => value.Apart f
  | _ => True

namespace Grammar

open Lexeme (Breaks)
open Scanner (Scans)

/-- The canonical text of a phrase. -/
def Phrase.chars : Phrase → List Node → List Char
  | arguments, xs => '(' :: (Node.charsArguments xs ++ [')'])
  | further, xs => Node.charsFurther xs
  | _, x :: _ => x.chars
  | _, [] => []

/-- Under which condition the text of a phrase before `f` is scanned right. -/
def Phrase.Good (f : List Char) : Phrase → List Node → Prop
  | arguments, xs => Node.LegibleAll xs
  | further, xs => Node.LegibleAll xs
  | value, x :: _ => x.Legible ∧ x.Apart f
  | primary, x :: _ => x.Legible ∧ x.Apart f
  | _, x :: _ => x.Legible
  | _, [] => True

/-- What can stand behind a phrase. Only a value goes on with a point. -/
def Phrase.Ends (f : List Char) : Phrase → Prop
  | value => Breaks f
  | primary => Breaks f
  | arguments => Breaks f
  | _ => Breaks f ∧ f.head? ≠ some '.'

/-- The tokens ahead begin with those of the phrase, and its text is scanned as tokens like them. -/
def Spelled (phrase : Phrase) (ts : List Token) (nodes : List Node) (rest : List Token) : Prop :=
  ∃ us, ts = us ++ rest ∧ (phrase ≠ .further → us ≠ []) ∧
    ((∀ u ∈ us, Token.Regular u.kind u.image.toList) → ∀ f, phrase.Ends f →
      Scans (phrase.Good f nodes) .block (phrase.chars nodes) us .block f)

variable {features : FeatureSet} {phrase : Phrase} {ts ts₁ ts₂ rest : List Token}
  {nodes args : List Node} {x y z : Node} {f : List Char} {c : Char}

theorem ends_cons (breaker : c ∈ Lexeme.breakers) (point : c ≠ '.') : phrase.Ends (c :: f) := by
  have breaks : Breaks (c :: f) := ⟨c, f, rfl, breaker⟩
  have other : (c :: f).head? ≠ some '.' := by
    intro h
    exact point (Option.some.inj h)
  cases phrase <;> first | exact breaks | exact ⟨breaks, other⟩

theorem apart_of_ne (point : f.head? ≠ some '.') : x.Apart f := by
  cases x <;> first | exact Literal.apart_of_ne point | trivial

/-- A point stands before a name only if the node before it is apart from both. -/
theorem apart_property_iff {name : String} (assignable : Bool)
    (regular : Token.Regular .identifier name.toList) (breaks : Breaks f) :
    x.Apart ('.' :: name.toList ++ f) ↔
      (Node.property x name assignable).isMisread = false := by
  obtain ⟨c, cs, image, start, part, -⟩ := regular
  cases x with
  | literal value =>
    have property := Lexeme.namesProperty_word start part breaks
    rw [← image] at property
    rw [Node.isMisread, Node.Apart, Literal.Apart]
    cases value.isWhole <;> simp [property]
  | _ => exact iff_of_true trivial rfl

theorem head?_of_regular {name : String} (regular : Token.Regular .identifier name.toList) :
    (name.toList ++ f).head?.any Char.isDigit = false := by
  obtain ⟨c, cs, image, start, -, -⟩ := regular
  rw [image]
  exact (Lexeme.start_spec start).1

theorem regular_identifier {t : Token} (hname : t.kind = .identifier)
    (regular : Token.Regular t.kind t.image.toList) :
    Token.Regular .identifier t.image.toList :=
  hname ▸ regular

namespace Spelled

theorem condition {tier : Nat} (h : Spelled (.chain tier) ts [x] rest) :
    Spelled .expression ts [x] rest := by
  obtain ⟨us, same, some, scans⟩ := h
  exact ⟨us, same, fun _ => some nofun, scans⟩

theorem operand (h : Spelled .unary ts [x] rest) : Spelled (.chain 0) ts [x] rest := by
  obtain ⟨us, same, some, scans⟩ := h
  exact ⟨us, same, fun _ => some nofun, scans⟩

theorem lift {tier : Nat} (h : Spelled (.chain tier) ts [x] rest) :
    Spelled (.chain (tier + 1)) ts [x] rest := by
  obtain ⟨us, same, some, scans⟩ := h
  exact ⟨us, same, fun _ => some nofun, scans⟩

theorem value (h : Spelled .value ts [x] rest) : Spelled .unary ts [x] rest := by
  obtain ⟨us, rfl, some, scans⟩ := h
  refine ⟨us, rfl, fun _ => some nofun, ?_⟩
  rintro regular f ⟨breaks, point⟩
  exact (scans regular f breaks).congr (and_iff_left (apart_of_ne point)).symm

theorem primary (h : Spelled .primary ts [x] rest) : Spelled .value ts [x] rest := by
  obtain ⟨us, same, some, scans⟩ := h
  exact ⟨us, same, fun _ => some nofun, scans⟩

theorem ternary {question colon : Token}
    (condition : Spelled (.chain BinaryOp.tiers) ts [x] (question :: ts₁))
    (hquestion : question.kind = .question)
    (yes : Spelled .expression ts₁ [y] (colon :: ts₂)) (hcolon : colon.kind = .colon)
    (no : Spelled .expression ts₂ [z] rest) :
    Spelled .expression ts [.ternary x y z] rest := by
  obtain ⟨us, rfl, -, first⟩ := condition
  obtain ⟨vs, rfl, some, second⟩ := yes
  obtain ⟨ws, rfl, some', third⟩ := no
  refine ⟨us ++ question :: (vs ++ colon :: ws), by simp, by simp, ?_⟩
  intro regular f ends
  obtain ⟨regular, regular'⟩ := List.forall_mem_append.mp regular
  obtain ⟨-, regular'⟩ := List.forall_mem_cons.mp regular'
  obtain ⟨regular', regular''⟩ := List.forall_mem_append.mp regular'
  obtain ⟨-, regular''⟩ := List.forall_mem_cons.mp regular''
  have last := (third regular'' f ends).blank (some' nofun)
  have mark := ((Scans.sign (c := ':') hcolon (by decide) rfl).blank nofun).append fun _ => last
  have endsYes : Phrase.expression.Ends (' ' :: ':' :: ' ' :: z.chars ++ f) :=
    ends_cons (by decide) (by decide)
  have middle := ((second regular' _ endsYes).blank (some nofun)).append fun _ => mark
  have mark' := ((Scans.sign (c := '?') hquestion (by decide) rfl).blank nofun).append
    fun _ => middle
  have endsCondition : (Phrase.chain BinaryOp.tiers).Ends
      (' ' :: '?' :: ' ' :: (y.chars ++ ' ' :: ':' :: ' ' :: z.chars) ++ f) :=
    ends_cons (by decide) (by decide)
  have all := (first regular _ endsCondition).append fun _ => mark'
  show Scans (Node.ternary x y z).Legible .block (Node.ternary x y z).chars _ .block f
  rw [Node.chars_ternary]
  apply all.congr
  rw [Node.legible_ternary]
  constructor
  · rintro ⟨condition, yes, no⟩
    exact ⟨condition, trivial, yes, trivial, no⟩
  · rintro ⟨condition, -, yes, -, no⟩
    exact ⟨condition, yes, no⟩

theorem binary {tier : Nat} {operator : Token} {op : BinaryOp}
    (left : Spelled (.chain (tier + 1)) ts [x] (operator :: ts₁))
    (hop : BinaryOp.ofKind? operator.kind = some op)
    (right : Spelled (.chain tier) ts₁ [y] rest) :
    Spelled (.chain (tier + 1)) ts [.binary op x y] rest := by
  obtain ⟨us, rfl, -, first⟩ := left
  obtain ⟨vs, rfl, some, second⟩ := right
  refine ⟨us ++ operator :: vs, by simp, by simp, ?_⟩
  intro regular f ends
  obtain ⟨regular, regular'⟩ := List.forall_mem_append.mp regular
  obtain ⟨-, regular'⟩ := List.forall_mem_cons.mp regular'
  have spelled : Scanner.Scans.IsOperator op.spelling operator.kind := by
    rw [BinaryOp.eq_kind hop]
    exact Scanner.Scans.isOperator_binary op
  have last := (second regular' f ends).blank (some nofun)
  have middle := ((Scans.operator spelled).blank nofun).append fun _ => last
  have ends' : (Phrase.chain (tier + 1)).Ends
      (' ' :: op.spelling.toList ++ ' ' :: y.chars ++ f) := ends_cons (by decide) (by decide)
  have all := (first regular _ ends').append fun _ => middle
  show Scans (Node.binary op x y).Legible .block (Node.binary op x y).chars _ .block f
  rw [Node.chars_binary]
  apply all.congr
  rw [Node.legible_binary]
  constructor
  · rintro ⟨left, right⟩
    exact ⟨left, trivial, right⟩
  · rintro ⟨left, -, right⟩
    exact ⟨left, right⟩

theorem unary {operator : Token} {op : UnaryOp}
    (hop : UnaryOp.ofKind? operator.kind = some op) (operand : Spelled .unary ts [x] rest) :
    Spelled .unary (operator :: ts) [.unary op x] rest := by
  obtain ⟨us, rfl, some, scans⟩ := operand
  refine ⟨operator :: us, rfl, nofun, ?_⟩
  intro regular f ends
  obtain ⟨-, regular⟩ := List.forall_mem_cons.mp regular
  have spelled : Scanner.Scans.IsOperator op.spelling operator.kind := by
    rw [UnaryOp.eq_kind hop]
    exact Scanner.Scans.isOperator_unary op
  have last := (scans regular f ends).blank (some nofun)
  have all := (Scans.operator spelled).append fun _ => last
  show Scans (Node.unary op x).Legible .block (Node.unary op x).chars _ .block f
  rw [Node.chars_unary]
  apply all.congr
  rw [Node.legible_unary]
  exact (and_iff_right trivial).symm

theorem property {dot name : Token} (base : Spelled .value ts [x] (dot :: name :: rest))
    (hdot : dot.kind = .dot) (hname : name.kind = .identifier) (assignable : Bool) :
    Spelled .value ts [.property x name.image assignable] rest := by
  obtain ⟨us, rfl, -, scans⟩ := base
  refine ⟨us ++ [dot, name], by simp, by simp, ?_⟩
  intro regular f breaks
  obtain ⟨regular, regular'⟩ := List.forall_mem_append.mp regular
  have named := regular' name (by simp)
  have regularName := regular_identifier hname named
  have last := Scans.identifier hname named breaks
  have point := (Scans.point hdot (head?_of_regular regularName)).append fun _ => last
  have ends : Breaks ('.' :: name.image.toList ++ f) := ⟨'.', _, rfl, by decide⟩
  have all := (scans regular _ ends).append fun _ => point
  show Scans ((Node.property x name.image assignable).Legible ∧ _) .block
    (Node.property x name.image assignable).chars _ .block f
  rw [Node.chars_property]
  apply all.congr
  rw [Node.legible_property, ← apart_property_iff assignable regularName breaks]
  constructor
  · rintro ⟨⟨apart, legible⟩, -⟩
    exact ⟨⟨legible, apart⟩, trivial, trivial⟩
  · rintro ⟨⟨legible, apart⟩, -, -⟩
    exact ⟨⟨apart, legible⟩, trivial⟩

theorem item {opening closing : Token} (base : Spelled .value ts [x] (opening :: ts₁))
    (hopening : opening.kind = .leftBracket)
    (key : Spelled .expression ts₁ [y] (closing :: rest))
    (hclosing : closing.kind = .rightBracket) (assignable : Bool) :
    Spelled .value ts [.item x y assignable] rest := by
  obtain ⟨us, rfl, -, first⟩ := base
  obtain ⟨vs, rfl, -, second⟩ := key
  refine ⟨us ++ opening :: (vs ++ [closing]), by simp, by simp, ?_⟩
  intro regular f breaks
  obtain ⟨regular, regular'⟩ := List.forall_mem_append.mp regular
  obtain ⟨-, regular'⟩ := List.forall_mem_cons.mp regular'
  obtain ⟨regular', -⟩ := List.forall_mem_append.mp regular'
  have last : Scans True .block [']'] [closing] .block f := .sign hclosing (by decide) rfl
  have endsKey : Phrase.expression.Ends ([']'] ++ f) := ends_cons (by decide) (by decide)
  have inner := (second regular' _ endsKey).append fun _ => last
  have behind := (Scans.sign (c := '[') hopening (by decide) rfl).append fun _ => inner
  have ends : Phrase.value.Ends ('[' :: (y.chars ++ [']']) ++ f) :=
    ends_cons (by decide) (by decide)
  have all := (first regular _ ends).append fun _ => behind
  show Scans ((Node.item x y assignable).Legible ∧ True) .block (Node.item x y assignable).chars _
    .block f
  rw [Node.chars_item]
  apply all.congr
  have apart : x.Apart ('[' :: (y.chars ++ [']']) ++ f) := apart_of_ne nofun
  rw [Node.legible_item]
  constructor
  · rintro ⟨⟨base, key⟩, -⟩
    exact ⟨⟨base, apart⟩, trivial, key, trivial⟩
  · rintro ⟨⟨base, -⟩, -, key, -⟩
    exact ⟨⟨base, key⟩, trivial⟩

theorem method (target : Spelled .value ts [x] ts₁)
    (arguments : Spelled .arguments ts₁ args rest) :
    Spelled .value ts [.method x args] rest := by
  obtain ⟨us, rfl, some, first⟩ := target
  obtain ⟨vs, rfl, -, second⟩ := arguments
  refine ⟨us ++ vs, by simp, by simp [some], ?_⟩
  intro regular f breaks
  obtain ⟨regular, regular'⟩ := List.forall_mem_append.mp regular
  have last := second regular' f breaks
  have ends : Phrase.value.Ends ('(' :: (Node.charsArguments args ++ [')']) ++ f) :=
    ends_cons (by decide) (by decide)
  have all := (first regular _ ends).append fun _ => last
  show Scans ((Node.method x args).Legible ∧ True) .block (Node.method x args).chars _ .block f
  rw [Node.chars_method]
  apply all.congr
  have apart : x.Apart ('(' :: (Node.charsArguments args ++ [')']) ++ f) := apart_of_ne nofun
  rw [Node.legible_method]
  constructor
  · rintro ⟨⟨target, arguments⟩, -⟩
    exact ⟨⟨target, apart⟩, arguments⟩
  · rintro ⟨⟨target, -⟩, arguments⟩
    exact ⟨⟨target, arguments⟩, trivial⟩

theorem identifier {name : Token} (hname : name.kind = .identifier) :
    Spelled .primary (name :: rest) [.identifier name.image 0] rest := by
  refine ⟨[name], rfl, nofun, ?_⟩
  intro regular f breaks
  show Scans ((Node.identifier name.image 0).Legible ∧ True) .block
    (Node.identifier name.image 0).chars _ .block f
  rw [Node.chars_identifier, Node.legible_identifier]
  exact (Scans.identifier hname (regular name (by simp)) breaks).congr (and_iff_left trivial)

theorem call {name : Token} (hname : name.kind = .identifier)
    (arguments : Spelled .arguments ts args rest) :
    Spelled .primary (name :: ts) [.call none name.image 0 args] rest := by
  obtain ⟨us, rfl, -, scans⟩ := arguments
  refine ⟨name :: us, rfl, nofun, ?_⟩
  intro regular f breaks
  obtain ⟨named, regular⟩ := List.forall_mem_cons.mp regular
  have ends : Breaks ('(' :: (Node.charsArguments args ++ [')']) ++ f) := ⟨'(', _, rfl, by decide⟩
  have all := (Scans.identifier hname named ends).append fun _ => scans regular f breaks
  show Scans ((Node.call none name.image 0 args).Legible ∧ True) .block
    (Node.call none name.image 0 args).chars _ .block f
  rw [Node.chars_call, Node.legible_call]
  exact all.congr and_comm

theorem qualifiedCall {qualifier colon name : Token} (hqualifier : qualifier.kind = .identifier)
    (hcolon : colon.kind = .colon) (hname : name.kind = .identifier)
    (arguments : Spelled .arguments ts args rest) :
    Spelled .primary (qualifier :: colon :: name :: ts)
      [.call (some qualifier.image) name.image 0 args] rest := by
  obtain ⟨us, rfl, -, scans⟩ := arguments
  refine ⟨qualifier :: colon :: name :: us, rfl, nofun, ?_⟩
  intro regular f breaks
  obtain ⟨qualified, regular⟩ := List.forall_mem_cons.mp regular
  obtain ⟨-, regular⟩ := List.forall_mem_cons.mp regular
  obtain ⟨named, regular⟩ := List.forall_mem_cons.mp regular
  have ends : Breaks ('(' :: (Node.charsArguments args ++ [')']) ++ f) := ⟨'(', _, rfl, by decide⟩
  have called := (Scans.identifier hname named ends).append fun _ => scans regular f breaks
  have mark := (Scans.sign (c := ':') hcolon (by decide) rfl).append fun _ => called
  have ends' : Breaks (':' :: (name.image.toList ++
      '(' :: (Node.charsArguments args ++ [')'])) ++ f) := ⟨':', _, rfl, by decide⟩
  have all := (Scans.identifier hqualifier qualified ends').append fun _ => mark
  show Scans ((Node.call (some qualifier.image) name.image 0 args).Legible ∧ True) .block
    (Node.call (some qualifier.image) name.image 0 args).chars _ .block f
  rw [Node.chars_qualifiedCall, Node.legible_call]
  apply all.congr
  constructor
  · rintro ⟨legible, -⟩
    exact ⟨trivial, trivial, trivial, legible⟩
  · rintro ⟨-, -, -, legible⟩
    exact ⟨legible, trivial⟩

theorem bracket {opening closing : Token} (hopening : opening.kind = .leftParen)
    (inner : Spelled .expression ts [x] (closing :: rest))
    (hclosing : closing.kind = .rightParen) :
    Spelled .primary (opening :: ts) [.bracket x] rest := by
  obtain ⟨us, rfl, -, scans⟩ := inner
  refine ⟨opening :: (us ++ [closing]), by simp, nofun, ?_⟩
  intro regular f breaks
  obtain ⟨-, regular⟩ := List.forall_mem_cons.mp regular
  obtain ⟨regular, -⟩ := List.forall_mem_append.mp regular
  have last : Scans True .block [')'] [closing] .block f := .sign hclosing (by decide) rfl
  have ends : Phrase.expression.Ends ([')'] ++ f) := ends_cons (by decide) (by decide)
  have inner := (scans regular _ ends).append fun _ => last
  have all := (Scans.sign (c := '(') hopening (by decide) rfl).append fun _ => inner
  show Scans ((Node.bracket x).Legible ∧ True) .block (Node.bracket x).chars _ .block f
  rw [Node.chars_bracket, Node.legible_bracket]
  apply all.congr
  exact (and_iff_right trivial).symm

theorem literal {t : Token} {value : Literal}
    (hvalue : Literal.ofToken? t = some (.ok value)) :
    Spelled .primary (t :: rest) [.literal value] rest := by
  refine ⟨[t], rfl, nofun, ?_⟩
  intro regular f breaks
  show Scans ((Node.literal value).Legible ∧ value.Apart f) .block (Node.literal value).chars _
    .block f
  rw [Node.chars_literal, Node.legible_literal]
  exact Scans.literal hvalue (regular t (by simp)) breaks

theorem noArguments {opening closing : Token} (hopening : opening.kind = .leftParen)
    (hclosing : closing.kind = .rightParen) :
    Spelled .arguments (opening :: closing :: rest) [] rest := by
  refine ⟨[opening, closing], rfl, nofun, ?_⟩
  intro _ f _
  have last : Scans True .block [')'] [closing] .block f := .sign hclosing (by decide) rfl
  have all := (Scans.sign (c := '(') hopening (by decide) rfl).append fun _ => last
  apply all.congr
  exact iff_of_true (Node.legibleAll_nil.mpr trivial) ⟨trivial, trivial⟩

theorem arguments {opening closing : Token} (hopening : opening.kind = .leftParen)
    (argument : Spelled .expression ts [x] ts₁)
    (more : Spelled .further ts₁ args (closing :: rest))
    (hclosing : closing.kind = .rightParen) :
    Spelled .arguments (opening :: ts) (x :: args) rest := by
  obtain ⟨us, rfl, -, first⟩ := argument
  obtain ⟨vs, rfl, -, second⟩ := more
  refine ⟨opening :: (us ++ (vs ++ [closing])), by simp, nofun, ?_⟩
  intro regular f _
  obtain ⟨-, regular⟩ := List.forall_mem_cons.mp regular
  obtain ⟨regular, regular'⟩ := List.forall_mem_append.mp regular
  obtain ⟨regular', -⟩ := List.forall_mem_append.mp regular'
  have last : Scans True .block [')'] [closing] .block f := .sign hclosing (by decide) rfl
  have endsMore : Phrase.further.Ends ([')'] ++ f) := ends_cons (by decide) (by decide)
  have further := (second regular' _ endsMore).append fun _ => last
  have ends : Phrase.expression.Ends (Node.charsFurther args ++ [')'] ++ f) := by
    cases args with
    | nil => exact ends_cons (by decide) (by decide)
    | cons y args =>
      rw [Node.charsFurther_cons]
      exact ends_cons (by decide) (by decide)
  have inner := (first regular _ ends).append fun _ => further
  have all := (Scans.sign (c := '(') hopening (by decide) rfl).append fun _ => inner
  show Scans (Node.LegibleAll (x :: args)) .block
    ('(' :: (Node.charsArguments (x :: args) ++ [')'])) _ .block f
  rw [Node.charsArguments_cons, List.append_assoc, Node.legibleAll_cons]
  apply all.congr
  constructor
  · rintro ⟨argument, more⟩
    exact ⟨trivial, argument, more, trivial⟩
  · rintro ⟨-, argument, more, -⟩
    exact ⟨argument, more⟩

theorem noFurther : Spelled .further rest [] rest := by
  refine ⟨[], rfl, fun other => absurd rfl other, ?_⟩
  intro _ f _
  exact Scans.nil.congr Node.legibleAll_nil

theorem further {comma : Token} (hcomma : comma.kind = .comma)
    (argument : Spelled .expression ts [x] ts₁) (more : Spelled .further ts₁ args rest) :
    Spelled .further (comma :: ts) (x :: args) rest := by
  obtain ⟨us, rfl, some, first⟩ := argument
  obtain ⟨vs, rfl, -, second⟩ := more
  refine ⟨comma :: (us ++ vs), by simp, nofun, ?_⟩
  intro regular f ends
  obtain ⟨-, regular⟩ := List.forall_mem_cons.mp regular
  obtain ⟨regular, regular'⟩ := List.forall_mem_append.mp regular
  have ends' : Phrase.expression.Ends (Node.charsFurther args ++ f) := by
    cases args with
    | nil => exact ends
    | cons y args =>
      rw [Node.charsFurther_cons]
      exact ends_cons (by decide) (by decide)
  have inner := ((first regular _ ends').blank (some nofun)).append
    fun _ => second regular' f ends
  have all := (Scans.sign (c := ',') hcomma (by decide) rfl).append fun _ => inner
  show Scans (Node.LegibleAll (x :: args)) .block (Node.charsFurther (x :: args)) _ .block f
  rw [Node.charsFurther_cons, Node.legibleAll_cons]
  apply all.congr
  exact (and_iff_right trivial).symm

end Spelled

/-- The text of a derived phrase is scanned as tokens like those it was derived from. -/
theorem Derives.spelled (h : Derives features phrase ts nodes rest) :
    Spelled phrase ts nodes rest := by
  induction h with
  | condition _ ih => exact ih.condition
  | ternary _ hquestion _ hcolon _ first second third =>
    exact first.ternary hquestion second hcolon third
  | operand _ ih => exact ih.operand
  | lift _ ih => exact ih.lift
  | binary _ hop _ _ first second => exact first.binary hop second
  | unary hop _ ih => exact ih.unary hop
  | value _ ih => exact ih.value
  | primary _ ih => exact ih.primary
  | property _ hdot hname ih => exact ih.property hdot hname _
  | item _ hopening _ hclosing first second => exact first.item hopening second hclosing _
  | method _ _ _ _ first second => exact first.method second
  | identifier hname _ => exact .identifier hname
  | call hname _ ih => exact ih.call hname
  | qualifiedCall hqualifier hcolon hname _ ih => exact ih.qualifiedCall hqualifier hcolon hname
  | bracket hopening _ hclosing ih => exact ih.bracket hopening hclosing
  | literal hvalue => exact .literal hvalue
  | noArguments hopening hclosing => exact .noArguments hopening hclosing
  | arguments hopening _ _ hclosing first second => exact .arguments hopening first second hclosing
  | noFurther => exact .noFurther
  | further hcomma _ _ first second => exact .further hcomma first second

end Grammar

end ElTemplate
