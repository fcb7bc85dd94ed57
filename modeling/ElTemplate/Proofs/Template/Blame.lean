import ElTemplate.Proofs.Grammar.Diagnosis

/-!
# Templates blame the right place

Blocks and texts complete to templates, and so does the beginning of a block. If the parser for a
template fails without running into a limit, then the tokens up to the place that the error blames
begin some template.
-/

namespace ElTemplate

open ParserState (before)

namespace Grammar

open ElTemplate.Parser

variable {features : FeatureSet} {deferred : Bool} {us vs ws rest : List Token} {x part : Node}
  {opening closing raw : Token}

/-- Some block begins with the tokens. -/
def CompletesBlock (features : FeatureSet) (deferred : Bool) (us : List Token) : Prop :=
  ∀ rest, ∃ ts x, us <+: ts ∧ Block features deferred ts x rest

/-- Some blocks and texts up to the end begin with the tokens. -/
def CompletesParts (features : FeatureSet) (deferred : Bool) (us : List Token) : Prop :=
  ∃ ts parts, us <+: ts ∧ parts ≠ [] ∧ Parts features deferred ts parts

/-- Some template begins with the tokens. -/
def CompletesSentence (features : FeatureSet) (us : List Token) : Prop :=
  ∃ more root deferred, Sentence features (us ++ more) root deferred

/-- The tokens behind a block may be changed. -/
theorem Block.retarget {ts : List Token} (h : Block features deferred ts part rest) :
    ∃ us, ts = us ++ rest ∧ ∀ vs, Block features deferred (us ++ vs) part vs := by
  cases h with
  | @mk ts _ opening closing child hopening expression hclosing =>
    obtain ⟨us, rfl, inner⟩ := expression.consumed nofun
    refine ⟨opening :: (us ++ [closing]), by simp, fun vs => ?_⟩
    simp only [List.cons_append, List.append_assoc, List.nil_append]
    have closes : Admits (closing :: vs) (closing :: rest) :=
      admits_of_kind (by simp [hclosing]) (by simp [hclosing]) (by simp [hclosing])
    exact .mk hopening (inner.derives _ closes) hclosing

namespace CompletesBlock

/-- The delimiter of a block, and the beginning of its expression. -/
theorem inner (hopening : opening.kind = startKind deferred)
    (h : Completes features .expression vs ws) :
    CompletesBlock features deferred (opening :: ws) := by
  intro rest
  obtain ⟨ts, child, begins, derived, -⟩ := h (⟨.endEval, "\x7d", 0⟩ :: rest)
    (neutral_of_kind nofun nofun nofun)
  exact ⟨opening :: ts, .eval deferred child, prefix_append begins [opening],
    .mk hopening derived rfl⟩

theorem opened (hopening : opening.kind = startKind deferred) :
    CompletesBlock features deferred [opening] :=
  inner hopening (.expression [])

/-- A whole block. -/
theorem closed (hopening : opening.kind = startKind deferred)
    (inner : Consumed features .expression us x vs) (hclosing : closing.kind = .endEval) :
    CompletesBlock features deferred (opening :: (us ++ [closing])) := by
  intro rest
  have closes : Admits (closing :: rest) vs :=
    admits_of_kind (by simp [hclosing]) (by simp [hclosing]) (by simp [hclosing])
  have begins : [closing] <+: closing :: rest := List.prefix_append _ _
  exact ⟨opening :: (us ++ closing :: rest), .eval deferred x,
    prefix_append (prefix_append begins us) [opening],
    .mk hopening (inner.derives _ closes) hclosing⟩

end CompletesBlock

theorem CompletesBlock.parts (h : CompletesBlock features deferred us) :
    CompletesParts features deferred us := by
  obtain ⟨ts, part, begins, block⟩ := h []
  exact ⟨ts, [part], begins, List.cons_ne_nil _ _, .block block .nil⟩

namespace CompletesParts

variable (first : ∀ vs, Block features deferred (us ++ vs) part vs)

include first

/-- A block, and the beginning of further ones. -/
theorem block (h : CompletesParts features deferred ws) :
    CompletesParts features deferred (us ++ ws) := by
  obtain ⟨ts, parts, begins, -, derived⟩ := h
  exact ⟨us ++ ts, part :: parts, prefix_append begins us, List.cons_ne_nil _ _,
    .block (first ts) derived⟩

/-- A block and a text. -/
theorem text (htext : raw.kind = .text) : CompletesParts features deferred (us ++ [raw]) :=
  ⟨us ++ [raw], _, List.prefix_rfl, List.cons_ne_nil _ _, .blockText (first _) htext .nil⟩

/-- A block and a text, and the beginning of further ones. -/
theorem blockText (htext : raw.kind = .text) (h : CompletesParts features deferred ws) :
    CompletesParts features deferred (us ++ raw :: ws) := by
  obtain ⟨ts, parts, begins, -, derived⟩ := h
  exact ⟨us ++ raw :: ts, _, prefix_append (prefix_append begins [raw]) us,
    List.cons_ne_nil _ _, .blockText (first _) htext derived⟩

end CompletesParts

/-- Blocks are a template by themselves. -/
theorem CompletesParts.sentence (h : CompletesParts features deferred us) :
    CompletesSentence features us := by
  obtain ⟨ts, parts, ⟨more, rfl⟩, some, derived⟩ := h
  exact ⟨more, _, _, derived.sentence some⟩

/-- Blocks are a template with a text before them. -/
theorem CompletesParts.textSentence (htext : raw.kind = .text)
    (h : CompletesParts features deferred us) : CompletesSentence features (raw :: us) := by
  obtain ⟨ts, parts, ⟨more, rfl⟩, some, derived⟩ := h
  exact ⟨more, _, _, .textParts htext derived some⟩

variable {final : Except ScanError Nat} {size : Nat} {ts : List Token} {names : Names}
  {e : CompileError}

theorem block_blames (ended : (⟨ts, final⟩ : Tape).EndsWell)
    (failed : block features size deferred (before ts final names 0 0) = .error e) :
    Blames (CompletesBlock features deferred) ts final e := by
  apply expect_blames (fun opening hopening => CompletesBlock.opened hopening)
    (startKind_ne deferred).2 ended failed
  rintro opening ts₁ rfl hopening ended failed
  apply Blames.cons
  have inner : Diagnoses features final 0 (expression features size)
      (fun depth x => x.FitsWithin 0 depth) .expression := (diagnoses_level maxNesting 0).1
  apply inner.bind nofun ended failed fun ws h => CompletesBlock.inner hopening h
  rintro us x ts₂ rfl child ended failed
  apply Blames.append
  apply expect_blames (fun closing hclosing => CompletesBlock.closed hopening child hclosing)
    nofun ended failed
  rintro closing rest rfl hclosing ended failed
  cases failed

/-- Behind a block a text or the end is looked for, and then further blocks. -/
theorem text?_blames {α : Type} {k : Option Node → Parser Tape α}
    (first : ∀ vs, Block features deferred (us ++ vs) part vs)
    (ended : (⟨ts, final⟩ : Tape).EndsWell)
    (failed : (text? >>= k) (before ts final names 0 0) = .error e)
    (next : ∀ text ts, (⟨ts, final⟩ : Tape).EndsWell →
      k text (before ts final names 0 0) = .error e →
      Blames (CompletesParts features deferred) ts final e) :
    Blames (fun ws => CompletesParts features deferred (us ++ ws)) ts final e := by
  rcases bind_eq_error failed with stuck | ⟨text, s', found, failed⟩
  · rw [text?, kind_before] at stuck
    split at stuck
    · next htext =>
      obtain ⟨text, rest, rfl, htext⟩ := exists_cons_of_kind htext (by decide)
      apply advance_blames (CompletesParts.text first htext) stuck
      intro ended failed
      cases failed
    · cases stuck
  · have keeps : Keeps text? := Simulates.text? Tape.simulation_endsWell
    have ended := keeps.endsWell ended found
    rcases text?_eq_ok found with ⟨rfl, -, rfl⟩ | ⟨text, rest, rfl, htext, rfl, rfl⟩
    · exact (next _ ts ended failed).imp fun ws h => .block first h
    · exact .cons ((next _ rest ended failed).imp fun ws h => .blockText first htext h)

theorem partsFrom_blames {budget : Nat} {done : List Node} (ended : (⟨ts, final⟩ : Tape).EndsWell)
    (failed : partsFrom features size deferred budget done (before ts final names 0 0) =
      .error e) :
    Blames (CompletesParts features deferred) ts final e := by
  induction budget generalizing ts names done with
  | zero => cases failed
  | succ budget ih =>
    rw [partsFrom, kind_before] at failed
    split at failed
    · cases failed
    · rcases bind_eq_error failed with stuck | ⟨a, s₁, read, failed⟩
      · exact (block_blames ended stuck).imp fun ws h => h.parts
      · have keeps : Keeps (block features size deferred) :=
          Simulates.block Tape.simulation_endsWell features size deferred
        have ended := keeps.endsWell ended read
        obtain ⟨part, rest, derived, -, rfl, rfl⟩ := sound_block read
        obtain ⟨us, split, first⟩ := derived.retarget
        rw [split]
        exact .append (text?_blames first ended failed fun text ts ended failed =>
          ih ended failed)

theorem blocks_blames {text : Option Node} (ended : (⟨ts, final⟩ : Tape).EndsWell)
    (failed : blocks features size text deferred (before ts final names 0 0) = .error e) :
    Blames (CompletesParts features deferred) ts final e := by
  rcases bind_eq_error failed with stuck | ⟨a, s₁, read, failed⟩
  · exact (block_blames ended stuck).imp fun ws h => h.parts
  · have keeps : Keeps (block features size deferred) :=
      Simulates.block Tape.simulation_endsWell features size deferred
    have ended := keeps.endsWell ended read
    obtain ⟨part, rest, derived, -, rfl, rfl⟩ := sound_block read
    obtain ⟨us, split, first⟩ := derived.retarget
    rw [split]
    rw [kind_before] at failed
    split at failed
    · cases failed
    · refine .append (text?_blames first ended failed fun text ts ended failed => ?_)
      rcases bind_eq_error failed with stuck | ⟨parts, s₂, -, failed⟩
      · exact partsFrom_blames ended stuck
      · cases failed

/-- Failing to read a template blames a place up to which the tokens begin one. -/
theorem template_blames (ended : (⟨ts, final⟩ : Tape).EndsWell)
    (failed : template features size (before ts final names 0 0) = .error e) :
    Blames (CompletesSentence features) ts final e := by
  rcases bind_eq_error failed with stuck | ⟨text, s', found, failed⟩
  · rw [text?, kind_before] at stuck
    split at stuck
    · next htext =>
      obtain ⟨raw, rest, rfl, htext⟩ := exists_cons_of_kind htext (by decide)
      have alone : CompletesSentence features [raw] := ⟨[], _, _, .text htext⟩
      apply advance_blames alone stuck
      intro ended failed
      cases failed
    · cases stuck
  · have keeps : Keeps text? := Simulates.text? Tape.simulation_endsWell
    have ended := keeps.endsWell ended found
    obtain ⟨us, rest, split, rfl, further⟩ : ∃ us rest, ts = us ++ rest ∧
        s' = before rest final names 0 0 ∧ ∀ deferred ws,
          CompletesParts features deferred ws → CompletesSentence features (us ++ ws) := by
      rcases text?_eq_ok found with ⟨-, -, rfl⟩ | ⟨raw, rest, rfl, htext, -, rfl⟩
      · exact ⟨[], ts, rfl, rfl, fun deferred ws h => h.sentence⟩
      · exact ⟨[raw], rest, rfl, rfl, fun deferred ws h => h.textSentence htext⟩
    rw [split]
    apply Blames.append
    rw [kind_before] at failed
    have starts (deferred : Bool) (t : Token) (hkind : t.kind = startKind deferred) :
        CompletesSentence features (us ++ [t]) :=
      further deferred [t] (CompletesBlock.opened hkind).parts
    have refusal (other : kindOf rest ∉ [.startDeferred, .startDynamic]) :
        Blames (fun ws => CompletesSentence features (us ++ ws)) rest final
          (.parse ⟨(⟨rest, final⟩ : Tape).current, .oneOf [.startDeferred, .startDynamic]⟩) := by
      refine .here ended other fun t member _ => ?_
      simp only [List.mem_cons, List.not_mem_nil, or_false] at member
      rcases member with hkind | hkind
      · exact starts true t hkind
      · exact starts false t hkind
    cases hk : kindOf rest <;> rw [hk] at failed
    case eof => cases failed
    case startDynamic =>
      rcases bind_eq_error failed with stuck | ⟨root, s₂, -, failed⟩
      · exact (blocks_blames ended stuck).imp (further false)
      · cases failed
    case startDeferred =>
      rcases bind_eq_error failed with stuck | ⟨root, s₂, -, failed⟩
      · exact (blocks_blames ended stuck).imp (further true)
      · cases failed
    all_goals
      cases failed
      exact refusal (by simp [hk])

end Grammar

end ElTemplate
