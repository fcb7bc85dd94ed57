import ElTemplate.Proofs.Grammar.Templates
import ElTemplate.Proofs.Node.Parts
import ElTemplate.Proofs.Template.Blame

/-!
# Templates behind one another

Behind a template that ends with a block, a template with the same delimiter goes on with further
parts. One with the other delimiter is refused where its first block begins.
-/

namespace ElTemplate

open ParserState (before)

/-- The node of a text. -/
def Token.textNode (t : Token) : Node :=
  .text t.image

namespace Grammar

open ElTemplate.Parser

variable {features : FeatureSet} {deferred deferred' : Bool} {size stop budget : Nat}
  {ts us vs : List Token} {final : Except ScanError Nat} {names : Names} {root root' : Node}
  {parts parts' : List Node} {lead : Option Token}

/-- A sentence is at most one text, or at most one text and blocks. -/
theorem Sentence.split (h : Sentence features ts root deferred) :
    ∃ lead : Option Token, (∀ t ∈ lead, t.kind = .text) ∧
      ((ts = lead.toList ∧ root = (lead.map Token.textNode).getD (.text "") ∧ deferred = false) ∨
        ∃ us parts, ts = lead.toList ++ us ∧ Parts features deferred us parts ∧ parts ≠ [] ∧
          root = rootOf (lead.map Token.textNode) parts) := by
  cases h with
  | empty => exact ⟨none, nofun, .inl ⟨rfl, rfl, rfl⟩⟩
  | @text t htext => exact ⟨some t, by simpa using htext, .inl ⟨rfl, rfl, rfl⟩⟩
  | block block =>
    exact ⟨none, nofun, .inr ⟨ts, [root], rfl, .block block .nil, List.cons_ne_nil _ _, rfl⟩⟩
  | @parts _ _ parts derived several =>
    have some : parts ≠ [] := List.ne_nil_of_length_pos (Nat.lt_trans Nat.zero_lt_one several)
    have root : rootOf none parts = .composite parts := rootOf_eq fun _ => several
    exact ⟨none, nofun, .inr ⟨ts, parts, rfl, derived, some, root.symm⟩⟩
  | @textParts _ us t parts htext derived nonempty =>
    exact ⟨some t, by simpa using htext, .inr ⟨us, parts, rfl, derived, nonempty, rfl⟩⟩

/-- Blocks are a sentence, with a text before them or without. -/
theorem Parts.sentence_rootOf (h : Parts features deferred us parts) (some : parts ≠ [])
    (htext : ∀ t ∈ lead, t.kind = .text) :
    Sentence features (lead.toList ++ us) (rootOf (lead.map Token.textNode) parts) deferred := by
  cases lead with
  | none => exact h.sentence some
  | some t => exact .textParts (htext t rfl) h some

theorem Block.parts_eq {part : Node} (h : Block features deferred ts part vs) :
    part.parts = [part] := by
  cases h with
  | mk _ _ _ => rfl

theorem Parts.parts_rootOf (h : Parts features deferred us parts) (some : parts ≠ [])
    (text : Option Node) : (rootOf text parts).parts = text.toList ++ parts := by
  cases text with
  | some text => rfl
  | none =>
    match parts, some with
    | [part], _ =>
      cases h with
      | block first _ => exact first.parts_eq
    | _ :: _ :: _, _ => rfl

theorem Parts.isText_rootOf (h : Parts features deferred us parts) (some : parts ≠ [])
    (text : Option Node) : (rootOf text parts).isText = false := by
  cases text with
  | some text => rfl
  | none =>
    match parts, some with
    | [part], _ =>
      cases h with
      | block first _ =>
        cases first with
        | mk _ _ _ => rfl
    | _ :: _ :: _, _ => rfl

/-- A template that is a text has no other tokens. -/
theorem Sentence.kind_eq_text (h : Sentence features ts root deferred)
    (text : root.isText) : ∀ t ∈ ts, t.kind = .text := by
  obtain ⟨lead, htext, ⟨rfl, -, -⟩ | ⟨us, parts, -, derived, some, rfl⟩⟩ := h.split
  · intro t member
    exact htext t (Option.mem_toList.mp member)
  · rw [derived.isText_rootOf some] at text
    cases text

theorem fitParts_texts (lead : Option Token) :
    Node.FitParts 0 0 (lead.map Token.textNode).toList := by
  cases lead with
  | none => trivial
  | some t => exact ⟨trivial, trivial⟩

theorem Parts.eq_nil (h : Parts features deferred [] parts) : parts = [] := by
  rcases h.kindOf_eq with ⟨-, none⟩ | ⟨start, -⟩
  · exact none
  · exact absurd start.symm (startKind_ne deferred).2

/-- The last token closes a block. -/
def Closed (ts : List Token) : Prop :=
  ts.getLast?.map Token.kind = some .endEval

theorem Closed.of_append (h : Closed (us ++ vs)) (some : vs ≠ []) : Closed vs := by
  rwa [Closed, List.getLast?_append,
    Option.or_of_isSome (List.getLast?_isSome.mpr some)] at h

/-- A template that ends with a block has one. -/
theorem Sentence.split_of_closed (h : Sentence features ts root deferred) (closed : Closed ts) :
    ∃ (lead : Option Token) (us : List Token) (parts : List Node),
      (∀ t ∈ lead, t.kind = .text) ∧ ts = lead.toList ++ us ∧ Closed us ∧
        Parts features deferred us parts ∧ parts ≠ [] ∧
          root = rootOf (lead.map Token.textNode) parts := by
  obtain ⟨lead, htext, ⟨rfl, -, -⟩ | ⟨us, parts, rfl, derived, some, rfl⟩⟩ := h.split
  · cases lead with
    | none => cases closed
    | some t =>
      cases (htext t rfl).symm.trans (Option.some.inj closed)
  · have nonempty : us ≠ [] := by
      rintro rfl
      exact some derived.eq_nil
    exact ⟨lead, us, parts, htext, rfl, closed.of_append nonempty, derived, some, rfl⟩

/-- Blocks go on behind a block, with a text in between or without. -/
theorem Parts.append (h : Parts features deferred us parts) (closed : Closed us)
    (htext : ∀ t ∈ lead, t.kind = .text) (more : Parts features deferred vs parts') :
    Parts features deferred (us ++ (lead.toList ++ vs))
      (parts ++ ((lead.map Token.textNode).toList ++ parts')) := by
  induction h with
  | nil => cases closed
  | @block ts rest part parts first further ih =>
    obtain ⟨us, rfl, retarget⟩ := first.retarget
    rw [List.append_assoc]
    cases rest with
    | nil =>
      cases further.eq_nil
      cases lead with
      | none => exact .block (retarget vs) more
      | some t => exact .blockText (retarget (t :: vs)) (htext t rfl) more
    | cons t rest =>
      exact .block (retarget _) (ih (closed.of_append (List.cons_ne_nil t rest)))
  | @blockText ts rest text part parts first hraw further ih =>
    obtain ⟨us, rfl, retarget⟩ := first.retarget
    have closed := closed.of_append (List.cons_ne_nil text rest)
    rw [List.append_assoc]
    cases rest with
    | nil => cases hraw.symm.trans (Option.some.inj closed)
    | cons t rest =>
      have closed : Closed ([text] ++ t :: rest) := closed
      exact .blockText (retarget _) hraw (ih (closed.of_append (List.cons_ne_nil t rest)))

/-- A sentence is a text, if there is one, and blocks, if there are any. Without blocks, those of
either delimiter may follow. -/
theorem Sentence.exists_parts (h : Sentence features ts root deferred')
    (nonempty : ∀ t ∈ ts, t.kind = .text → t.image ≠ "")
    (same : root.isText ∨ deferred' = deferred) :
    ∃ (lead : Option Token) (us : List Token) (parts : List Node),
      (∀ t ∈ lead, t.kind = .text) ∧ ts = lead.toList ++ us ∧
        Parts features deferred us parts ∧
          root.parts = (lead.map Token.textNode).toList ++ parts := by
  obtain ⟨lead, htext, ⟨rfl, rfl, -⟩ | ⟨us, parts, rfl, derived, some, rfl⟩⟩ := h.split
  · refine ⟨lead, [], [], htext, (List.append_nil _).symm, .nil, ?_⟩
    cases lead with
    | none => rfl
    | some t =>
      have image : t.image ≠ "" := nonempty t (List.mem_singleton_self t) (htext t rfl)
      exact if_neg image
  · have blocks := derived.isText_rootOf some (lead.map Token.textNode)
    obtain rfl : deferred' = deferred := same.resolve_left (by simp [blocks])
    exact ⟨lead, us, parts, htext, rfl, derived, derived.parts_rootOf some _⟩

/-- A sentence that ends with a block goes on with a text, or with a sentence of the same blocks. -/
theorem Sentence.append (h : Sentence features ts root deferred) (closed : Closed ts)
    (h' : Sentence features us root' deferred')
    (nonempty : ∀ t ∈ us, t.kind = .text → t.image ≠ "")
    (same : root'.isText ∨ deferred' = deferred) :
    ∃ both, Sentence features (ts ++ us) both deferred ∧ both.parts = root.parts ++ root'.parts := by
  obtain ⟨lead, ts, parts, htext, rfl, closed, derived, some, rfl⟩ := h.split_of_closed closed
  obtain ⟨lead', us, parts', htext', rfl, derived', parted⟩ := h'.exists_parts nonempty same
  have all := derived.append closed htext' derived'
  have some' : parts ++ ((lead'.map Token.textNode).toList ++ parts') ≠ [] := by simp [some]
  have sentence := all.sentence_rootOf some' htext
  rw [← List.append_assoc] at sentence
  refine ⟨_, sentence, ?_⟩
  rw [all.parts_rootOf some', derived.parts_rootOf some, parted, List.append_assoc]

section Refusals

/-- A block is refused where its delimiter does not stand. -/
theorem block_refuses (foreign : kindOf ts ≠ startKind deferred) :
    block features size deferred (before ts final names 0 0) =
      .error (.parse ⟨TokenSource.current (⟨ts, final⟩ : Tape), .oneOf [startKind deferred]⟩) := by
  apply bind_of_error
  rw [expect, kind_before, if_neg foreign]
  rfl

theorem startKind_not_ne (deferred : Bool) : startKind (!deferred) ≠ startKind deferred := by
  cases deferred <;> exact nofun

/-- What fails behind some parts fails behind the first block as well. -/
theorem blocks_of_partsFrom {text : Option Node} {e : CompileError} (going : kindOf ts ≠ .eof)
    (failed : partsFrom features size deferred (size + 1) text.toList
      (before ts final names 0 0) = .error e) :
    blocks features size text deferred (before ts final names 0 0) = .error e := by
  rw [partsFrom, kind_before, if_neg going] at failed
  rcases bind_eq_error failed with stopped | ⟨first, s, read, failed⟩
  · exact bind_of_error stopped
  · rw [blocks, bind_of_ok read, kind_bind]
    split
    · next single =>
      -- At the end of the tokens nothing fails any more.
      have found : text? s = .ok (none, s) := by
        rw [text?, kind_bind, single.1]
        rfl
      rw [bind_of_ok found] at failed
      cases size with
      | zero => cases failed
      | succ size =>
        rw [partsFrom, kind_bind, if_pos single.1] at failed
        cases failed
    · rcases bind_eq_error failed with stopped | ⟨next, s, found, failed⟩
      · exact bind_of_error stopped
      · rw [bind_of_ok found]
        exact bind_of_error failed

/-- A block is read, and then the text behind it. -/
theorem Block.partsFrom_eq {part : Node} {rest : List Token}
    (h : Block features deferred ts part rest) (fits : part.Fits 0 0) (hsize : ts.length ≤ size)
    (done : List Node) (names : Names) :
    partsFrom features size deferred (budget + 1) done (before ts (.ok stop) names 0 0) =
      (text? >>= fun text => partsFrom features size deferred budget
        (text.toList ++ (part.register features names).1 :: done))
          (before rest (.ok stop) (part.register features names).2 0 0) := by
  have going : kindOf ts ≠ .eof := h.kindOf_eq ▸ (startKind_ne deferred).2
  rw [partsFrom, kind_before, if_neg going, bind_of_ok ((h.leads hsize).reaches fits)]

variable {d : Token} {more : List Token} (foreign : d.kind = startKind (!deferred))

include foreign

/-- Behind blocks the other delimiter is refused. -/
theorem Parts.partsFrom_refuses (h : Parts features deferred us parts)
    (fits : Node.FitParts 0 0 parts) (done : List Node) (names : Names)
    (hsize : (us ++ d :: more).length ≤ size) (hbudget : us.length < budget) :
    partsFrom features size deferred budget done (before (us ++ d :: more) (.ok stop) names 0 0) =
      .error (.parse ⟨d, .oneOf [startKind deferred]⟩) := by
  have ⟨textless, going⟩ : d.kind ≠ .text ∧ d.kind ≠ .eof := foreign ▸ startKind_ne _
  have other : d.kind ≠ startKind deferred := foreign ▸ startKind_not_ne deferred
  obtain ⟨budget, rfl⟩ := Nat.exists_eq_succ_of_ne_zero (Nat.ne_zero_of_lt hbudget)
  induction h generalizing budget done names with
  | nil =>
    rw [List.nil_append, partsFrom, kind_before, kindOf_cons, if_neg going]
    exact bind_of_error (block_refuses other)
  | @block ts rest part parts first further ih =>
    have shorter := first.length_lt
    obtain ⟨us, rfl, retarget⟩ := first.retarget
    have textless : kindOf (rest ++ d :: more) ≠ .text := by
      cases rest with
      | nil => exact textless
      | cons t rest => exact further.kindOf_ne_text
    rw [List.append_assoc] at hsize ⊢
    rw [(retarget _).partsFrom_eq fits.1 hsize, bind_of_ok (text?_of_ne _ _ textless)]
    rw [List.length_append] at hsize
    obtain ⟨budget, rfl⟩ : ∃ n, budget = n + 1 := ⟨budget - 1, by omega⟩
    exact ih fits.2 _ _ (by omega) budget (by omega)
  | @blockText ts rest text part parts first hraw further ih =>
    have shorter := first.length_lt
    obtain ⟨us, rfl, retarget⟩ := first.retarget
    rw [List.append_assoc] at hsize ⊢
    rw [(retarget _).partsFrom_eq fits.1 hsize, List.cons_append,
      bind_of_ok (text?_of_text _ _ hraw)]
    rw [List.length_append, List.cons_append, List.length_cons] at hsize
    rw [List.length_cons] at shorter
    obtain ⟨budget, rfl⟩ : ∃ n, budget = n + 1 := ⟨budget - 1, by omega⟩
    exact ih fits.2.2 _ _ (by omega) budget (by omega)

/-- Behind a template with a block the other delimiter is refused. -/
theorem Sentence.refuses_start (h : Sentence features ts root deferred)
    (block : root.isText = false) (fits : root.Fits 0 0) (hsize : (ts ++ d :: more).length ≤ size) :
    template features size (before (ts ++ d :: more) (.ok stop) names 0 0) =
      .error (.parse ⟨d, .oneOf [startKind deferred]⟩) := by
  obtain ⟨first, hfirst, ⟨-, rfl, -⟩ | ⟨us, parts, rfl, derived, some, rfl⟩⟩ := h.split
  · cases first <;> cases block
  have start : kindOf (us ++ d :: more) = startKind deferred := by
    obtain ⟨start, -⟩ := derived.kindOf_eq.resolve_left fun none => some none.2
    cases us with
    | nil => exact absurd start.symm (startKind_ne deferred).2
    | cons t us => exact start
  have textless : kindOf (us ++ d :: more) ≠ .text := start ▸ (startKind_ne deferred).1
  have going : kindOf (us ++ d :: more) ≠ .eof := start ▸ (startKind_ne deferred).2
  have found : text? (before (first.toList ++ us ++ d :: more) (.ok stop) names 0 0) =
      .ok (first.map Token.textNode, before (us ++ d :: more) (.ok stop) names 0 0) := by
    rw [List.append_assoc]
    cases first with
    | none => exact text?_of_ne _ _ textless
    | some t => exact text?_of_text _ _ (hfirst t rfl)
  have fits : Node.FitParts 0 0 parts := by
    rw [← Node.fitParts_parts, derived.parts_rootOf some, Node.fitParts_append] at fits
    exact fits.2
  have refused : partsFrom features size deferred (size + 1) (first.map Token.textNode).toList
      (before (us ++ d :: more) (.ok stop) names 0 0) =
        .error (.parse ⟨d, .oneOf [startKind deferred]⟩) := by
    rw [List.append_assoc, List.length_append] at hsize
    refine derived.partsFrom_refuses foreign fits _ names (by omega) ?_
    rw [List.length_append] at hsize
    omega
  rw [template, bind_of_ok found, kind_before, start]
  cases deferred <;> exact bind_of_error (blocks_of_partsFrom going refused)

/-- Behind a sentence that ends with a block, the other delimiter is refused, with a text before it
or without. -/
theorem Sentence.refuses (h : Sentence features ts root deferred) (closed : Closed ts)
    (fits : root.Fits 0 0) (htext : ∀ t ∈ lead, t.kind = .text)
    (hsize : (ts ++ (lead.toList ++ d :: more)).length ≤ size) :
    template features size (before (ts ++ (lead.toList ++ d :: more)) (.ok stop) names 0 0) =
      .error (.parse ⟨d, .oneOf [startKind deferred]⟩) := by
  obtain ⟨first, us, parts, hfirst, rfl, closed, derived, some, rfl⟩ := h.split_of_closed closed
  have all : Parts features deferred (us ++ lead.toList)
      (parts ++ (lead.map Token.textNode).toList) := by
    simpa using derived.append closed htext .nil
  have some' : parts ++ (lead.map Token.textNode).toList ≠ [] := by simp [some]
  have sentence := all.sentence_rootOf some' hfirst
  have fits : (rootOf (first.map Token.textNode)
      (parts ++ (lead.map Token.textNode).toList)).Fits 0 0 := by
    rw [← Node.fitParts_parts, derived.parts_rootOf some] at fits
    rw [← Node.fitParts_parts, all.parts_rootOf some', ← List.append_assoc, Node.fitParts_append]
    exact ⟨fits, fitParts_texts lead⟩
  have reassociated : first.toList ++ us ++ (lead.toList ++ d :: more) =
      first.toList ++ (us ++ lead.toList) ++ d :: more := by
    simp only [List.append_assoc]
  rw [reassociated] at hsize ⊢
  exact sentence.refuses_start foreign (all.isText_rootOf some' _) fits hsize

end Refusals

end Grammar

end ElTemplate
