import ElTemplate.Proofs.Grammar.Completeness
import ElTemplate.Proofs.Grammar.Soundness

/-!
# Reading whole templates

Blocks follow one another up to the end of the tape. Their number is bounded by the number of
tokens, so that the bound given to the parser never ends the template early. Nothing is nested where
a block begins, and both counts are zero there.
-/

namespace ElTemplate

open ParserState (before)

namespace Grammar

open ElTemplate.Parser

variable {features : FeatureSet} {deferred : Bool} {size stop budget : Nat} {ts rest : List Token}
  {final : Except ScanError Nat} {names : Names} {part : Node} {parts : List Node}

/-- The node of a template: a block by itself, or the text and the blocks in sequence. -/
def rootOf : Option Node → List Node → Node
  | none, [part] => part
  | text, parts => .composite (text.toList ++ parts)

theorem Block.kindOf_eq (h : Block features deferred ts part rest) :
    kindOf ts = startKind deferred := by
  cases h with
  | mk hopening _ _ => exact hopening

theorem startKind_ne (deferred : Bool) :
    startKind deferred ≠ .text ∧ startKind deferred ≠ .eof := by
  cases deferred <;> exact ⟨nofun, nofun⟩

/-- Behind a block and its text stands another block, or nothing. -/
theorem Parts.kindOf_eq (h : Parts features deferred ts parts) :
    (ts = [] ∧ parts = []) ∨ (kindOf ts = startKind deferred ∧ parts ≠ []) := by
  cases h with
  | nil => exact .inl ⟨rfl, rfl⟩
  | block first _ => exact .inr ⟨first.kindOf_eq, nofun⟩
  | blockText first _ _ => exact .inr ⟨first.kindOf_eq, nofun⟩

/-- No text stands where blocks begin, and none behind the last. -/
theorem Parts.kindOf_ne_text (h : Parts features deferred ts parts) : kindOf ts ≠ .text := by
  rcases h.kindOf_eq with ⟨rfl, -⟩ | ⟨start, -⟩
  · exact nofun
  · rw [start]
    exact (startKind_ne deferred).1

theorem one_lt_length_registerAll (names : Names) (x y : Node) (parts : List Node) :
    1 < (Node.registerAll features names (x :: y :: parts)).1.length := by
  rw [Node.length_registerAll]
  exact Nat.succ_lt_succ (Nat.succ_pos _)

/-- A block that ends no template by itself is followed by another one, or a text comes first. -/
theorem Parts.one_lt_length {text : Option Node} (h : Parts features deferred ts parts)
    (goesOn : ¬ (kindOf ts = .eof ∧ text.isNone)) (names : Names) (part : Node) :
    text = none → 1 < (Node.registerAll features names (part :: parts)).1.length := by
  rintro rfl
  cases parts with
  | nil =>
    rcases h.kindOf_eq with ⟨rfl, -⟩ | ⟨-, some⟩
    · exact absurd ⟨rfl, rfl⟩ goesOn
    · exact absurd rfl some
  | cons next parts => exact one_lt_length_registerAll names part next parts

theorem Block.length_lt (h : Block features deferred ts part rest) : rest.length < ts.length := by
  cases h with
  | mk _ expression _ => exact Nat.lt_succ_of_lt expression.length_le

theorem Block.suffix (h : Block features deferred ts part rest) : rest <:+ ts := by
  cases h with
  | mk _ expression _ =>
    exact (List.suffix_cons _ _).trans (expression.suffix.trans (List.suffix_cons _ _))

theorem Block.leads (h : Block features deferred ts part rest) (hsize : ts.length ≤ size) :
    Leads (block features size deferred (before ts (.ok stop) names 0 0)) (part.Fits 0 0)
      (.ok ((part.register features names).1,
        before rest (.ok stop) (part.register features names).2 0 0)) := by
  cases h with
  | @mk ts _ opening closing child hopening expression hclosing =>
    have ends : continuesExpression (kindOf (closing :: rest)) = false := by
      rw [kindOf_cons, hclosing]
      rfl
    have read : ReadsExpression features size stop ts child (closing :: rest) :=
      expression.reads size stop
    rw [Node.Fits]
    apply Leads.bind_ok (expect_before hopening)
    have inner := read names (Nat.add_zero maxNesting) (Nat.zero_le _)
      (Nat.le_of_succ_le hsize) ends
    exact inner.bind_pure (bind_of_ok (expect_before hclosing))

theorem sound_block {a : Node} {s' : ParserState Tape}
    (h : block features size deferred (before ts final names 0 0) = .ok (a, s')) :
    ∃ x rest, Block features deferred ts x rest ∧ x.Fits 0 0 ∧
      a = (x.register features names).1 ∧
      s' = before rest final (x.register features names).2 0 0 := by
  obtain ⟨opening, s₁, opened, h⟩ := bind_eq_ok h
  obtain ⟨ts₁, rfl, hopening, rfl⟩ := expect_eq_ok opened (startKind_ne deferred).2
  obtain ⟨b, s₂, read, h⟩ := bind_eq_ok h
  obtain ⟨child, ts₂, derived, fits, rfl, rfl⟩ := (sound_level maxNesting 0).1 read
  obtain ⟨closing, s₃, closed, h⟩ := bind_eq_ok h
  obtain ⟨rest, rfl, hclosing, rfl⟩ := expect_eq_ok closed nofun
  cases h
  exact ⟨.eval deferred child, rest, .mk hopening derived hclosing, fits, rfl, rfl⟩

theorem text?_of_text {text : Token} (stop : Nat) (names : Names) (h : text.kind = .text) :
    text? (before (text :: rest) (.ok stop) names 0 0) =
      .ok (some (.text text.image), before rest (.ok stop) names 0 0) := by
  rw [text?, kind_before, kindOf_cons, if_pos h]
  exact bind_of_ok advance_before

theorem text?_of_ne (final : Except ScanError Nat) (names : Names) (h : kindOf ts ≠ .text) :
    text? (before ts final names 0 0) = .ok (none, before ts final names 0 0) := by
  rw [text?, kind_before, if_neg h]
  rfl

/-- The text that was found is a token of the tape. -/
theorem text?_eq_ok {text : Option Node} {s' : ParserState Tape}
    (h : text? (before ts final names 0 0) = .ok (text, s')) :
    (text = none ∧ kindOf ts ≠ .text ∧ s' = before ts final names 0 0) ∨
      ∃ t rest, ts = t :: rest ∧ t.kind = .text ∧ text = some (.text t.image) ∧
        s' = before rest final names 0 0 := by
  rw [text?, kind_before] at h
  split at h
  · next htext =>
    obtain ⟨t, s₁, moved, h⟩ := bind_eq_ok h
    obtain ⟨rest, rfl, rfl⟩ := advance_of_kindOf moved htext nofun
    cases h
    exact .inr ⟨t, rest, rfl, htext, rfl, rfl⟩
  · next htext =>
    cases h
    exact .inl ⟨rfl, htext, rfl⟩

theorem Parts.leads (h : Parts features deferred ts parts) (budget : Nat) (done : List Node)
    (names : Names) (hsize : ts.length ≤ size) (hbudget : ts.length ≤ budget) :
    Leads (partsFrom features size deferred budget done (before ts (.ok stop) names 0 0))
      (Node.FitParts 0 0 parts)
      (.ok (done.reverse ++ (Node.registerAll features names parts).1,
        before [] (.ok stop) (Node.registerAll features names parts).2 0 0)) := by
  induction h generalizing budget done names with
  | nil =>
    rw [Node.FitParts]
    apply Leads.of_eq
    cases budget with
    | zero => rw [partsFrom, pure_apply, Node.registerAll, List.append_nil]
    | succ budget =>
      rw [partsFrom, kind_before, kindOf_nil, if_pos rfl, pure_apply, Node.registerAll,
        List.append_nil]
  | @block ts rest part parts first more ih =>
    have shorter := first.length_lt
    have start : kindOf ts ≠ .eof := first.kindOf_eq ▸ (startKind_ne deferred).2
    cases budget with
    | zero => omega
    | succ budget =>
      rw [partsFrom, kind_before, if_neg start, Node.FitParts]
      refine (first.leads hsize).bind fun _ => Leads.bind_ok
        (text?_of_ne _ _ more.kindOf_ne_text) ?_
      have tail := ih budget ((part.register features names).1 :: done)
        (part.register features names).2 (by omega) (by omega)
      rw [List.reverse_cons, List.append_assoc] at tail
      exact tail
  | @blockText ts rest text part parts first htext more ih =>
    have shorter := first.length_lt
    rw [List.length_cons] at shorter
    have start : kindOf ts ≠ .eof := first.kindOf_eq ▸ (startKind_ne deferred).2
    cases budget with
    | zero => omega
    | succ budget =>
      rw [partsFrom, kind_before, if_neg start, Node.FitParts, Node.FitParts, Node.Fits, true_and]
      refine (first.leads hsize).bind fun _ => Leads.bind_ok (text?_of_text _ _ htext) ?_
      have tail := ih budget (.text text.image :: (part.register features names).1 :: done)
        (part.register features names).2 (by omega) (by omega)
      rw [List.reverse_cons, List.reverse_cons, List.append_assoc, List.append_assoc] at tail
      exact tail

theorem rootOf_eq {text : Option Node} (h : text = none → 1 < parts.length) :
    rootOf text parts = .composite (text.toList ++ parts) := by
  cases text with
  | some t => rfl
  | none =>
    match parts with
    | [] => rfl
    | [_] => exact absurd (h rfl) (Nat.lt_irrefl 1)
    | _ :: _ :: _ => rfl

theorem reverse_toList {α : Type} (o : Option α) : o.toList.reverse = o.toList := by
  cases o <;> rfl

/-- What follows the first block is read up to the end. -/
theorem Parts.leads_rest {ts₁ : List Token} {text next : Option Node} (first : Node)
    (found : text? (before ts₁ (.ok stop) names 0 0) = .ok (next, before ts (.ok stop) names 0 0))
    (more : Parts features deferred ts parts) (hsize : ts.length ≤ size) :
    Leads
      ((text? >>= fun next =>
        partsFrom features size deferred size (next.toList ++ first :: text.toList) >>= fun parts =>
          pure (Node.composite parts)) (before ts₁ (.ok stop) names 0 0))
      (Node.FitParts 0 0 parts)
      (.ok (.composite
          (text.toList ++ first :: (next.toList ++ (Node.registerAll features names parts).1)),
        before [] (.ok stop) (Node.registerAll features names parts).2 0 0)) := by
  apply Leads.bind_ok found
  apply (more.leads size (next.toList ++ first :: text.toList) names hsize hsize).bind_pure
  rw [List.reverse_append, List.reverse_cons, reverse_toList, reverse_toList, pure_apply]
  simp only [List.append_assoc, List.cons_append, List.nil_append]

/-- The blocks of a template are read up to the end. -/
theorem Parts.leads_blocks (h : Parts features deferred ts parts) (some : parts ≠ [])
    (text : Option Node) (names : Names) (stop : Nat) (hsize : ts.length ≤ size) :
    Leads (blocks features size text deferred (before ts (.ok stop) names 0 0))
      (Node.FitParts 0 0 parts)
      (.ok (rootOf text (Node.registerAll features names parts).1,
        before [] (.ok stop) (Node.registerAll features names parts).2 0 0)) := by
  cases h with
  | nil => exact absurd rfl some
  | @block ts rest part parts first more =>
    have shorter := first.length_lt
    rw [Node.FitParts]
    apply (first.leads hsize).bind
    intro _
    rw [kind_before]
    by_cases single : kindOf rest = .eof ∧ text.isNone
    · obtain ⟨ended, without⟩ := single
      rcases more.kindOf_eq with ⟨rfl, rfl⟩ | ⟨next, -⟩
      · cases Option.isNone_iff_eq_none.mp without
        rw [if_pos ⟨ended, without⟩, Node.FitParts]
        exact Leads.of_eq rfl
      · exact absurd (next.symm.trans ended) (startKind_ne deferred).2
    · rw [if_neg single]
      rw [rootOf_eq (more.one_lt_length single names part)]
      exact more.leads_rest (part.register features names).1
        (text?_of_ne _ _ more.kindOf_ne_text) (by omega)
  | @blockText ts rest raw part parts first htext more =>
    have shorter := first.length_lt
    rw [List.length_cons] at shorter
    rw [Node.FitParts, Node.FitParts, Node.Fits, true_and]
    apply (first.leads hsize).bind
    intro _
    have going : kindOf (raw :: rest) ≠ .eof := by
      rw [kindOf_cons, htext]
      decide
    rw [kind_before, if_neg fun both => going both.1,
      rootOf_eq fun _ => one_lt_length_registerAll names part (.text raw.image) parts]
    exact more.leads_rest (part.register features names).1 (text?_of_text _ _ htext) (by omega)

/-- A template with blocks is read up to the end. -/
theorem Parts.leads_template {tokens : List Token} {text : Option Node}
    (h : Parts features deferred ts parts) (some : parts ≠ [])
    (found : text? (before tokens (.ok stop) names 0 0) =
      .ok (text, before ts (.ok stop) names 0 0))
    (hsize : ts.length ≤ size) :
    Leads (template features size (before tokens (.ok stop) names 0 0)) (Node.FitParts 0 0 parts)
      (.ok ((rootOf text (Node.registerAll features names parts).1, deferred),
        before [] (.ok stop) (Node.registerAll features names parts).2 0 0)) := by
  apply Leads.bind_ok found
  rcases h.kindOf_eq with ⟨-, none⟩ | ⟨start, -⟩
  · exact absurd none some
  · have read := h.leads_blocks some text names stop hsize
    rw [kind_before, start]
    cases deferred <;> exact read.bind_pure rfl

/-- A sentence is read as its root. -/
theorem Sentence.leads {root : Node} (h : Sentence features ts root deferred)
    (hsize : ts.length ≤ size) :
    Leads (template features size (before ts (.ok stop) names 0 0)) (root.Fits 0 0)
      (.ok (((root.register features names).1, deferred),
        before [] (.ok stop) (root.register features names).2 0 0)) := by
  cases h with
  | empty =>
    have ended : kindOf [] ≠ .text := nofun
    rw [Node.Fits]
    exact Leads.of_eq (bind_of_ok (text?_of_ne _ _ ended))
  | text htext =>
    rw [Node.Fits]
    exact Leads.of_eq (bind_of_ok (text?_of_text stop names htext))
  | block block =>
    have derived : Parts features deferred ts [root] := .block block .nil
    have single := derived.leads_template (List.cons_ne_nil root [])
      (text?_of_ne (.ok stop) names derived.kindOf_ne_text) hsize
    rw [Node.FitParts, Node.FitParts, and_true] at single
    exact single
  | @parts _ _ parts derived several =>
    have some : parts ≠ [] := by
      rintro rfl
      exact absurd several (Nat.not_lt_zero 1)
    have read := derived.leads_template some
      (text?_of_ne (.ok stop) names derived.kindOf_ne_text) hsize
    have long : (none : Option Node) = none →
        1 < (Node.registerAll features names parts).1.length := by
      rwa [Node.length_registerAll, imp_iff_right rfl]
    rw [rootOf_eq long] at read
    rw [Node.Fits]
    exact read
  | @textParts _ _ text parts htext derived some =>
    have read := derived.leads_template some (text?_of_text stop names htext)
      (Nat.le_of_succ_le hsize)
    rw [Node.Fits, Node.FitParts, Node.Fits, true_and]
    exact read

/-- The end is met only where no token is left. -/
theorem eq_nil_of_kindOf (proper : ∀ t ∈ ts, t.kind ≠ .eof) (h : kindOf ts = .eof) : ts = [] := by
  cases ts with
  | nil => rfl
  | cons t rest => exact absurd h (proper t (List.mem_cons_self ..))

theorem sound_partsFrom {done as : List Node} {s' : ParserState Tape}
    (proper : ∀ t ∈ ts, t.kind ≠ .eof) (hbudget : ts.length ≤ budget)
    (h : partsFrom features size deferred budget done (before ts final names 0 0) =
      .ok (as, s')) :
    ∃ parts, Parts features deferred ts parts ∧ Node.FitParts 0 0 parts ∧
      as = done.reverse ++ (Node.registerAll features names parts).1 ∧
      s' = before [] final (Node.registerAll features names parts).2 0 0 := by
  induction budget generalizing ts done names with
  | zero =>
    cases List.eq_nil_of_length_eq_zero (Nat.le_zero.mp hbudget)
    cases h
    exact ⟨[], .nil, trivial, (List.append_nil _).symm, rfl⟩
  | succ budget ih =>
    rw [partsFrom, kind_before] at h
    split at h
    · next ended =>
      cases eq_nil_of_kindOf proper ended
      cases h
      exact ⟨[], .nil, trivial, (List.append_nil _).symm, rfl⟩
    · obtain ⟨b, s₁, read, h⟩ := bind_eq_ok h
      obtain ⟨part, rest, first, fits, rfl, rfl⟩ := sound_block read
      have shorter := first.length_lt
      have properRest : ∀ t ∈ rest, t.kind ≠ .eof := by
        intro t ht
        exact proper t (first.suffix.mem ht)
      obtain ⟨text, s₂, found, h⟩ := bind_eq_ok h
      rcases text?_eq_ok found with ⟨rfl, -, rfl⟩ | ⟨raw, ts₂, rfl, htext, rfl, rfl⟩
      · obtain ⟨parts, more, fitsAll, rfl, rfl⟩ := ih properRest (by omega) h
        refine ⟨part :: parts, .block first more, ⟨fits, fitsAll⟩, ?_, rfl⟩
        rw [Option.toList_none, List.nil_append, List.reverse_cons, List.append_assoc]
        rfl
      · have properMore : ∀ t ∈ ts₂, t.kind ≠ .eof := by
          intro t ht
          exact properRest t (List.mem_cons_of_mem raw ht)
        rw [List.length_cons] at shorter
        obtain ⟨parts, more, fitsAll, rfl, rfl⟩ := ih properMore (by omega) h
        refine ⟨part :: .text raw.image :: parts, .blockText first htext more,
          ⟨fits, trivial, fitsAll⟩, ?_, rfl⟩
        rw [Option.toList_some, List.singleton_append, List.reverse_cons, List.reverse_cons,
          List.append_assoc, List.append_assoc]
        rfl

theorem sound_blocks {text : Option Node} {a : Node} {s' : ParserState Tape}
    (proper : ∀ t ∈ ts, t.kind ≠ .eof) (hsize : ts.length ≤ size)
    (h : blocks features size text deferred (before ts final names 0 0) = .ok (a, s')) :
    ∃ parts, parts ≠ [] ∧ Parts features deferred ts parts ∧ Node.FitParts 0 0 parts ∧
      a = rootOf text (Node.registerAll features names parts).1 ∧
      s' = before [] final (Node.registerAll features names parts).2 0 0 := by
  obtain ⟨b, s₁, read, going⟩ := bind_eq_ok h
  obtain ⟨part, rest, first, fits, rfl, rfl⟩ := sound_block read
  have shorter := first.length_lt
  have properRest : ∀ t ∈ rest, t.kind ≠ .eof := by
    intro t ht
    exact proper t (first.suffix.mem ht)
  rw [kind_before] at going
  split at going
  · next single =>
    cases eq_nil_of_kindOf properRest single.1
    cases Option.isNone_iff_eq_none.mp single.2
    cases going
    exact ⟨[part], List.cons_ne_nil _ _, .block first .nil, ⟨fits, trivial⟩, rfl, rfl⟩
  · next several =>
    obtain ⟨next, s₂, found, going⟩ := bind_eq_ok going
    obtain ⟨as, s₃, readMore, done⟩ := bind_eq_ok going
    cases done
    rcases text?_eq_ok found with ⟨rfl, -, rfl⟩ | ⟨raw, ts₂, rfl, htext, rfl, rfl⟩
    · obtain ⟨parts, more, fitsAll, rfl, rfl⟩ := sound_partsFrom properRest (by omega) readMore
      refine ⟨part :: parts, List.cons_ne_nil _ _, .block first more, ⟨fits, fitsAll⟩, ?_, rfl⟩
      rw [rootOf_eq (more.one_lt_length several names part), Option.toList_none, List.nil_append,
        List.reverse_cons, reverse_toList, List.append_assoc]
      rfl
    · have properMore : ∀ t ∈ ts₂, t.kind ≠ .eof := by
        intro t ht
        exact properRest t (List.mem_cons_of_mem raw ht)
      rw [List.length_cons] at shorter
      obtain ⟨parts, more, fitsAll, rfl, rfl⟩ := sound_partsFrom properMore (by omega) readMore
      refine ⟨part :: .text raw.image :: parts, List.cons_ne_nil _ _,
        .blockText first htext more, ⟨fits, trivial, fitsAll⟩, ?_, rfl⟩
      have long : text = none →
          1 < (Node.registerAll features names (part :: .text raw.image :: parts)).1.length :=
        fun _ => one_lt_length_registerAll names part (.text raw.image) parts
      rw [rootOf_eq long, Option.toList_some, List.singleton_append, List.reverse_cons,
        List.reverse_cons, reverse_toList, List.append_assoc, List.append_assoc]
      rfl

/-- Blocks without a text before them are a sentence by themselves. -/
theorem Parts.sentence (h : Parts features deferred ts parts) (some : parts ≠ []) :
    Sentence features ts (rootOf none parts) deferred := by
  match parts, some with
  | [part], _ =>
    cases h with
    | block first more =>
      cases more with
      | nil => exact .block first
  | part :: next :: parts, _ =>
    exact .parts h (Nat.succ_lt_succ (Nat.succ_pos _))

theorem register_rootOf (some : parts ≠ []) (names : Names) :
    (rootOf none parts).register features names =
      (rootOf none (Node.registerAll features names parts).1,
        (Node.registerAll features names parts).2) := by
  match parts, some with
  | [part], _ => rfl
  | part :: next :: parts, _ => rfl

theorem fits_rootOf (h : Node.FitParts 0 0 parts) (some : parts ≠ []) :
    (rootOf none parts).Fits 0 0 := by
  match parts, some with
  | [part], _ => exact h.1
  | part :: next :: parts, _ => exact h

/-- Behind its first text a template ends, or its blocks begin. -/
theorem template_eq_ok {text : Option Node} {a : Node} {s s' : ParserState Tape}
    (found : text? s = .ok (text, before ts final names 0 0))
    (h : template features size s = .ok ((a, deferred), s')) :
    (kindOf ts = .eof ∧ a = text.getD (.text "") ∧ deferred = false ∧
        s' = before ts final names 0 0) ∨
      blocks features size text deferred (before ts final names 0 0) = .ok (a, s') := by
  rw [template, bind_of_ok found, kind_before] at h
  cases hk : kindOf ts <;> rw [hk] at h
  case eof =>
    cases h
    exact .inl ⟨rfl, rfl, rfl, rfl⟩
  case startDynamic =>
    obtain ⟨b, s₁, read, h⟩ := bind_eq_ok h
    cases h
    exact .inr read
  case startDeferred =>
    obtain ⟨b, s₁, read, h⟩ := bind_eq_ok h
    cases h
    exact .inr read
  all_goals cases h

/-- Reading succeeds on sentences only. -/
theorem sound_template {a : Node} {s' : ParserState Tape} (proper : ∀ t ∈ ts, t.kind ≠ .eof)
    (hsize : ts.length ≤ size)
    (h : template features size (before ts final names 0 0) = .ok ((a, deferred), s')) :
    ∃ root, Sentence features ts root deferred ∧ root.Fits 0 0 ∧
      a = (root.register features names).1 ∧
      s' = before [] final (root.register features names).2 0 0 := by
  obtain ⟨text, s₁, found, -⟩ := bind_eq_ok h
  rcases text?_eq_ok found with ⟨rfl, -, rfl⟩ | ⟨raw, ts₁, rfl, htext, rfl, rfl⟩
  · rcases template_eq_ok found h with ⟨ended, rfl, rfl, rfl⟩ | read
    · cases eq_nil_of_kindOf proper ended
      exact ⟨.text "", .empty, trivial, rfl, rfl⟩
    · obtain ⟨parts, some, derived, fits, rfl, rfl⟩ := sound_blocks proper hsize read
      refine ⟨rootOf none parts, derived.sentence some, fits_rootOf fits some, ?_, ?_⟩ <;>
        rw [register_rootOf some]
  · have properMore : ∀ t ∈ ts₁, t.kind ≠ .eof := by
      intro t ht
      exact proper t (List.mem_cons_of_mem raw ht)
    rcases template_eq_ok found h with ⟨ended, rfl, rfl, rfl⟩ | read
    · cases eq_nil_of_kindOf properMore ended
      exact ⟨.text raw.image, .text htext, trivial, rfl, rfl⟩
    · obtain ⟨parts, some, derived, fits, rfl, rfl⟩ :=
        sound_blocks properMore (Nat.le_of_succ_le hsize) read
      exact ⟨_, .textParts htext derived some, ⟨trivial, fits⟩, rfl, rfl⟩

end Grammar

end ElTemplate
