import ElTemplate.Proofs.Node.Registration
import ElTemplate.Proofs.Template.RoundTrip
import ElTemplate.Proofs.Text.Delimiter

/-!
# Integers in templates

An integer is its number, however many digits it has and whatever zeros they begin with: a small one
is kept as the number and a large one as the digits without these zeros, so that equal numbers are
equal literals. Every literal of a compiled template belongs to a token of its source, and so no
integer in a template is negative or has other digits than its number.
-/

namespace ElTemplate

namespace Literal

/-- What is known of an integer in a template: it is some number, its spelling is that number's, and
it begins with a zero only if it is zero. -/
structure IsNatural (value : Literal) : Prop where
  eq_ofNat : ∃ n, value = .ofNat n ∧ value.spelling = toString n
  some : value.spelling ≠ ""
  digits : ∀ c ∈ value.spelling.toList, c.isDigit
  plain : value.spelling.toList.head? = Option.some '0' → value = .integer 0

theorem isNatural_ofNat (n : Nat) : (ofNat n).IsNatural := by
  have spelled : (ofNat n).spelling.toList = Digits.ofNat n := by
    rw [spelling_ofNat]
    exact String.toList_ofList
  constructor
  case eq_ofNat => exact ⟨n, rfl, spelling_ofNat n⟩
  case some =>
    intro none
    rw [none] at spelled
    exact Digits.ofNat_ne_nil n spelled.symm
  case digits =>
    rw [spelled]
    exact fun c => Digits.isDigit_of_mem_ofNat
  case plain =>
    intro zero
    rw [spelled] at zero
    rw [Digits.eq_zero_of_head zero]
    rfl

end Literal

namespace Grammar

variable {features : FeatureSet} {phrase : Phrase} {deferred : Bool} {ts rest us : List Token}
  {nodes parts : List Node} {part root : Node} {value : Literal}

/-- One of the tokens spells the literal. -/
def SpelledBy (ts : List Token) (value : Literal) : Prop :=
  ∃ t ∈ ts, Literal.ofToken? t = some (.ok value)

theorem SpelledBy.mono (h : SpelledBy us value) (part : us ⊆ ts) : SpelledBy ts value := by
  obtain ⟨t, member, spells⟩ := h
  exact ⟨t, part member, spells⟩

theorem SpelledBy.cons (h : SpelledBy ts value) (t : Token) : SpelledBy (t :: ts) value :=
  h.mono (List.subset_cons_self t ts)

theorem SpelledBy.behind {t : Token} (h : SpelledBy us value)
    (first : Derives features phrase ts nodes (t :: us)) : SpelledBy ts value :=
  (h.cons t).mono first.suffix.subset

section Derivations

attribute [local simp] Node.subnodes Node.subnodesAll or_imp forall_and

/-- Every literal of a tree is spelled by one of the tokens that the tree is derived from. -/
theorem Derives.spelledBy (h : Derives features phrase ts nodes rest) :
    ∀ value, .literal value ∈ Node.subnodesAll nodes → SpelledBy ts value := by
  induction h with
  | condition _ ih => exact ih
  | ternary condition _ yes _ _ first second third =>
    simp at first second third ⊢
    exact ⟨first, fun value inside => (second value inside).behind condition,
      fun value inside => ((third value inside).behind yes).behind condition⟩
  | operand _ ih => exact ih
  | lift _ ih => exact ih
  | binary left _ _ _ first second =>
    simp at first second ⊢
    exact ⟨first, fun value inside => (second value inside).behind left⟩
  | unary _ _ ih => simpa using fun value inside => (ih value (by simpa using inside)).cons _
  | value _ ih => exact ih
  | primary _ ih => exact ih
  | property _ _ _ ih => simpa using ih
  | item base _ _ _ first second =>
    simp at first second ⊢
    exact ⟨first, fun value inside => (second value inside).behind base⟩
  | method target _ _ _ first second =>
    simp at first ⊢
    exact ⟨first, fun value inside => (second value inside).mono target.suffix.subset⟩
  | identifier => simp
  | call _ _ ih => simpa using fun value inside => (ih value inside).cons _
  | qualifiedCall _ _ _ _ ih =>
    simpa using fun value inside => (((ih value inside).cons _).cons _).cons _
  | bracket _ _ _ ih => simpa using fun value inside => (ih value (by simpa using inside)).cons _
  | @literal _ t value hvalue => simpa using ⟨t, List.mem_cons_self, hvalue⟩
  | noArguments => simp
  | arguments _ next _ _ first second =>
    simp at first ⊢
    exact ⟨fun value inside => (first value inside).cons _,
      fun value inside => ((second value inside).mono next.suffix.subset).cons _⟩
  | noFurther => simp
  | further _ next _ first second =>
    simp at first ⊢
    exact ⟨fun value inside => (first value inside).cons _,
      fun value inside => ((second value inside).mono next.suffix.subset).cons _⟩

theorem Block.spelledBy (h : Block features deferred ts part rest)
    (member : .literal value ∈ part.subnodes) : SpelledBy ts value := by
  cases h with
  | mk _ expression _ => exact (expression.spelledBy value (by simpa using member)).cons _

theorem Parts.spelledBy (h : Parts features deferred ts parts)
    (member : .literal value ∈ Node.subnodesAll parts) : SpelledBy ts value := by
  induction h with
  | nil => cases member
  | block first _ ih =>
    rcases List.mem_append.mp member with inside | further
    · exact first.spelledBy inside
    · exact (ih further).mono first.suffix.subset
  | blockText first _ _ ih =>
    rcases List.mem_append.mp member with inside | further
    · exact first.spelledBy inside
    · exact ((ih (by simpa using further)).cons _).mono first.suffix.subset

theorem Sentence.spelledBy (h : Sentence features ts root deferred)
    (member : .literal value ∈ root.subnodes) : SpelledBy ts value := by
  cases h with
  | empty => simp at member
  | text _ => simp at member
  | block block => exact block.spelledBy member
  | parts derived _ => exact derived.spelledBy (by simpa using member)
  | textParts _ derived _ => exact (derived.spelledBy (by simpa using member)).cons _

end Derivations

end Grammar

namespace Template

open scoped CoreInstances
open Grammar Lexical Text
open ElTemplate.Parser (startKind)

variable {features : FeatureSet} {source : String} {t : Template} {value : Literal}
  {deferred : Bool} {gap gap' ds : List Char}

/-- Every literal of a compiled template is spelled by one of its tokens. -/
theorem spelledBy_tape (compiled : compile features source = .ok t)
    (member : .literal value ∈ t.root.subnodes) : SpelledBy (tape source).tokens value := by
  obtain ⟨tokens, stop, root, deferred, scanned, sentence, -, rfl⟩ := compile_eq_ok_iff.mp compiled
  rw [ofRoot_eq, Node.subnodes_reindex] at member
  obtain ⟨x, inside, same⟩ := List.mem_map.mp member
  have literal : x = .literal value := by
    cases x with
    | literal v => exact same
    | _ => cases same
  rw [scanned]
  exact sentence.spelledBy (literal ▸ inside)

theorem isNatural_of_mem (compiled : compile features source = .ok t)
    (member : .literal value ∈ t.root.subnodes) (whole : value.isWhole) : value.IsNatural := by
  obtain ⟨token, scanned, spells⟩ := spelledBy_tape compiled member
  have kind : token.kind = .integer :=
    (Literal.eq_kind spells).trans (Literal.kind_of_isWhole whole)
  have regular := (Scanner.ofChars source.toList).regular_of_mem_tape token scanned
  rw [kind] at regular
  rw [Literal.ofToken?.eq_def, kind] at spells
  obtain rfl : Literal.ofDigits token.image.toList = value := by simpa using spells
  rw [Literal.ofDigits_eq regular.2]
  exact Literal.isNatural_ofNat _

/-- The source of a block that holds these characters. -/
def blockAround (deferred : Bool) (inner : List Char) : String :=
  String.ofList (opener deferred ++ (inner ++ ['\x7d']))

theorem tape_of_integer (deferred : Bool) (run : IsDigits ds) (blank : ∀ c ∈ gap, isBlank c)
    (blank' : ∀ c ∈ gap', isBlank c) :
    ∃ p q stop, tape (blockAround deferred (gap ++ (ds ++ gap'))) =
      ⟨[⟨startKind deferred, String.ofList (opener deferred), 0⟩, ⟨.integer, String.ofList ds, p⟩,
        ⟨.endEval, "\x7d", q⟩], .ok stop⟩ := by
  have ends : Lexeme.EndsNumber (gap' ++ ['\x7d']) ∧ (gap' ++ ['\x7d']).head? ≠ some '.' := by
    cases gap' with
    | nil => exact ⟨Lexeme.endsNumber_cons rfl (by decide), by decide⟩
    | cons c cs =>
      have first := blank' c List.mem_cons_self
      refine ⟨Lexeme.endsNumber_of_isBlank first, ?_⟩
      rintro ⟨rfl⟩
      cases first
  have opening : (Scanner.ofChars (blockAround deferred (gap ++ (ds ++ gap'))).toList).next =
      (.ok ⟨startKind deferred, String.ofList (opener deferred), 0⟩,
        ⟨.block, gap ++ (ds ++ (gap' ++ ['\x7d'])), 2⟩) := by
    rw [blockAround, String.toList_ofList, List.append_assoc, List.append_assoc]
    cases deferred <;> rfl
  have number := (Scanner.next_blanks blank _ 2).trans
    (Scanner.next_integer run ends.1 ends.2 (2 + gap.length))
  have closing (p : Nat) : Scanner.next ⟨.block, gap' ++ ['\x7d'], p⟩ =
      (.ok ⟨.endEval, "\x7d", p + gap'.length⟩, ⟨.text, [], p + gap'.length + 1⟩) :=
    Scanner.next_blanks blank' _ p
  have scanned := Scanner.Emits.tape_of_ended
    (.cons opening (.cons number (.cons (closing _) .nil)))
    (by cases deferred <;> simp [startKind]) rfl
  exact ⟨_, _, _, scanned⟩

/-- A block with nothing but digits is the number that they are. -/
theorem compile_of_integer (features : FeatureSet) (run : IsDigits ds)
    (blank : ∀ c ∈ gap, isBlank c) (blank' : ∀ c ∈ gap', isBlank c) :
    compile features (blockAround deferred (gap ++ (ds ++ gap'))) =
      .ok ⟨.eval deferred (.literal (.ofNat (Digits.toNat ds))), deferred, [], []⟩ := by
  obtain ⟨p, q, stop, scanned⟩ := tape_of_integer deferred run blank blank'
  have spells : Literal.ofToken? ⟨.integer, String.ofList ds, p⟩ =
      some (.ok (.ofNat (Digits.toNat ds))) := by
    rw [Literal.ofToken?.eq_def, String.toList_ofList, Literal.ofDigits_eq run.digits]
  have fits : (Node.literal (.ofNat (Digits.toNat ds))).Fits 1 1 := trivial
  have sentence : Sentence features [⟨startKind deferred, String.ofList (opener deferred), 0⟩,
      ⟨.integer, String.ofList ds, p⟩, ⟨.endEval, "\x7d", q⟩]
      (.eval deferred (.literal (.ofNat (Digits.toNat ds)))) deferred :=
    .ofValue rfl (.primary (.literal spells)) rfl
  exact (compile_of_sentence scanned sentence).reaches (fits.eval deferred)

/-- The text is a run of digits, but for white space around it. -/
structure HoldsDigits (inner ds : List Char) : Prop where
  run : IsDigits ds
  blanks : ∃ gap gap', inner = gap ++ (ds ++ gap') ∧ (∀ c ∈ gap, isBlank c) ∧ ∀ c ∈ gap', isBlank c

theorem HoldsDigits.compile_eq {inner : List Char} (h : HoldsDigits inner ds)
    (features : FeatureSet) (deferred : Bool) :
    compile features (blockAround deferred inner) =
      .ok ⟨.eval deferred (.literal (.ofNat (Digits.toNat ds))), deferred, [], []⟩ := by
  obtain ⟨gap, gap', rfl, blank, blank'⟩ := h.blanks
  exact compile_of_integer features h.run blank blank'

/-- A block that holds nothing but digits is their number, of any length: up to the greatest integer
of sixty-four signed bits it is kept as the number and from there on as the digits that it has
without zeros in front, and either way its canonical text has these digits. So digits are equal
literals exactly if they are equal numbers. No integer of a compiled template is negative, without
digits, or begins with a zero unless it is zero. -/
theorem compile_integer (features : FeatureSet) :
    (∀ deferred inner ds, HoldsDigits inner ds →
      ∃ t value, compile features (blockAround deferred inner) = .ok t ∧
        t.root = .eval deferred (.literal value) ∧
        value = (if Digits.toNat ds ≤ 2 ^ 63 - 1 then .integer (Digits.toNat ds)
          else .bigInteger (toString (Digits.toNat ds))) ∧
        value.spelling = toString (Digits.toNat ds) ∧
        t.canonical = String.ofList (opener deferred) ++ toString (Digits.toNat ds) ++ "\x7d") ∧
    (∀ deferred inner inner' ds ds', HoldsDigits inner ds → HoldsDigits inner' ds' →
      (compile features (blockAround deferred inner) =
        compile features (blockAround deferred inner') ↔ Digits.toNat ds = Digits.toNat ds')) ∧
    ∀ source t value, compile features source = .ok t → .literal value ∈ t.root.subnodes →
      value.isWhole → value.IsNatural := by
  refine ⟨fun deferred inner ds held => ?_, fun deferred inner inner' ds ds' held held' => ?_,
    fun source t value => isNatural_of_mem⟩
  · refine ⟨_, _, held.compile_eq features deferred, rfl, rfl, Literal.spelling_ofNat _, ?_⟩
    rw [canonical, Node.canonical, Node.spelling, Node.spelling, Literal.spelling_ofNat]
    cases deferred <;> rfl
  · rw [held.compile_eq, held'.compile_eq]
    constructor
    · intro same
      have literals : Literal.ofNat (Digits.toNat ds) = Literal.ofNat (Digits.toNat ds') := by
        simpa using same
      exact Literal.ofNat_injective literals
    · intro same
      rw [same]

/-- Zeros and white space in front make no difference, and the first number beyond sixty-four signed
bits is kept as its digits. -/
theorem compile_integer_zeros :
    compile .none "$\x7b 007\x7d" = compile .none "$\x7b7\x7d" ∧
    ∃ t, compile .none "#\x7b09223372036854775808\x7d" = .ok t ∧
      t.root = .eval true (.literal (.bigInteger "9223372036854775808")) ∧
      (Literal.bigInteger "9223372036854775808").IsNatural := by
  obtain ⟨compiles, equal, natural⟩ := compile_integer .none
  have held : HoldsDigits [' ', '0', '0', '7'] ['0', '0', '7'] :=
    ⟨⟨nofun, List.all_eq_true.mp rfl⟩, [' '], [], rfl, List.all_eq_true.mp rfl, nofun⟩
  have whole (ds : List Char) (run : IsDigits ds) : HoldsDigits ds ds :=
    ⟨run, [], [], (List.append_nil ds).symm, nofun, nofun⟩
  have seven := whole ['7'] ⟨nofun, List.all_eq_true.mp rfl⟩
  obtain ⟨t, value, compiled, root, hvalue, -⟩ := compiles true _ _ (whole
    ['0', '9', '2', '2', '3', '3', '7', '2', '0', '3', '6', '8', '5', '4', '7', '7', '5', '8', '0',
      '8'] ⟨nofun, List.all_eq_true.mp rfl⟩)
  obtain rfl : value = .bigInteger "9223372036854775808" := hvalue
  have member : .literal (.bigInteger "9223372036854775808") ∈ t.root.subnodes := by
    rw [root]
    exact List.mem_cons_of_mem _ List.mem_cons_self
  exact ⟨(equal false _ _ _ _ held seven).mpr rfl, t, compiled, root,
    natural _ t _ compiled member rfl⟩

end Template

end ElTemplate
