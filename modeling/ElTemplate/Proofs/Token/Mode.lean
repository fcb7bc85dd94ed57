import ElTemplate.Proofs.Token.Quotation
import ElTemplate.Proofs.Token.Tiling

/-!
# Inside and outside of blocks

Outside of blocks every character belongs to a token, so that scanning fails inside of a block only,
behind its delimiter and before the brace that would close it. Behind a text there is a delimiter or
the end.
-/

namespace ElTemplate

namespace Lexical

variable {cs image : List Char}

theorem Spells.isFloat (h : Spells cs .float image) : IsFloat image := by
  generalize same : Token.Kind.float = kind at h
  cases h with
  | operator listed =>
    subst same
    exact absurd (List.mem_map_of_mem listed) (by decide : Token.Kind.float ∉
      Lexeme.operators.map Prod.snd)
  | word => exact absurd same.symm (Lexeme.ofWord_ne (by decide) _)
  | integer => cases same
  | float float => exact float
  | string => cases same

end Lexical

namespace Lexeme

variable {fault : ScanFault} {c : Char} {rest cs : List Char}

theorem fault_of_ofBlock (failed : ofBlock c rest = .error fault) (image : String) :
    fault ≠ .malformedFloat image := by
  simp only [ofBlock] at failed
  split at failed
  · cases failed
  · split at failed
    · cases failed
    · split at failed
      · cases failed
        exact ScanFault.noConfusion
      · split at failed
        · rcases fault_of_stringRest failed with ⟨c, rfl, -⟩ | rfl <;> exact ScanFault.noConfusion
        · split at failed
          · cases failed
          · cases failed
            exact ScanFault.noConfusion

end Lexeme

namespace Scanner

variable {s s' : Scanner} {t : Token} {e : ScanError}

/-- A scanner never takes a token for a float that is no decimal. -/
theorem fault_of_next (failed : s.next = (.error e, s')) (image : String) :
    e.fault ≠ .malformedFloat image := by
  obtain ⟨mode, rest, position⟩ := s
  cases mode with
  | text => cases rest <;> cases failed
  | block =>
    simp only [next] at failed
    split at failed
    · cases failed
    · split at failed
      · cases failed
      · next lexed =>
        cases failed
        exact Lexeme.fault_of_ofBlock lexed image

theorem fault_of_tape (failed : s.tape.final = .error e) (image : String) :
    e.fault ≠ .malformedFloat image := by
  induction s using tape.induct with
  | case1 s e' s' next =>
    rw [tape_of_error next] at failed
    cases failed
    exact fault_of_next next image
  | case2 s t s' next kind =>
    rw [tape_of_eof next kind] at failed
    cases failed
  | case3 s t s' next kind ih =>
    rw [tape_of_token next kind] at failed
    exact ih failed

section Step

variable (h : s.next = (.ok t, s')) (kind : t.kind ≠ .eof)

include h kind

theorem mem_textKinds_iff : t.kind ∈ Lexeme.textKinds ↔ s.mode = .text :=
  (moves_of_next h kind).fits.outside

theorem mode_of_next : s'.mode = s.mode.after t.kind :=
  (moves_of_next h kind).mode

end Step

/-- Every float that is scanned has the form of one, and is a decimal. -/
theorem isFloat_of_next (h : s.next = (.ok t, s')) (kind : t.kind = .float) :
    Lexical.IsFloat t.image.toList ∧ (Binary64.read? t.image.toList).isSome := by
  have proper : t.kind ≠ .eof := by
    rw [kind]
    exact nofun
  have inside : s.mode = .block := by
    cases mode : s.mode with
    | block => rfl
    | text =>
      have outer := (mem_textKinds_iff h proper).mpr mode
      rw [kind] at outer
      exact absurd outer (by decide)
  have spells : Lexical.Spells _ t.kind t.image.toList :=
    (moves_of_next h proper).fits.spells inside
  rw [kind] at spells
  exact ⟨spells.isFloat, (Binary64.read?_of_isFloat spells.isFloat).2⟩

section Outside

variable (mode : s.mode = .text)

include mode

/-- Outside of blocks every step gives a token. -/
theorem exists_next_of_text : ∃ t s', s.next = (.ok t, s') := by
  obtain ⟨_, rest, position⟩ := s
  cases mode
  cases rest <;> exact ⟨_, _, rfl⟩

theorem kind_of_text (h : s.next = (.ok t, s')) : t.kind ∈ Lexeme.textKinds ∨ t.kind = .eof := by
  by_cases kind : t.kind = .eof
  · exact .inr kind
  · exact .inl ((mem_textKinds_iff h kind).mpr mode)

/-- If no text is ahead, then a delimiter is, or the end. -/
theorem stop_of_ne_text (h : s.next = (.ok t, s')) (other : t.kind ≠ .text) :
    s.rest = [] ∨ (Lexeme.delimiter? s.rest).isSome := by
  obtain ⟨_, rest, position⟩ := s
  cases mode
  cases rest with
  | nil => exact .inl rfl
  | cons c cs =>
    cases h
    refine .inr ?_
    cases start : Lexeme.delimiter? (c :: cs) with
    | some kind => rfl
    | none =>
      refine absurd ?_ other
      simp only [Lexeme.ofText, start]
      rfl

/-- A delimiter, or the end, is read where it is. -/
theorem kind_of_stop (stop : s.rest = [] ∨ (Lexeme.delimiter? s.rest).isSome)
    (h : s.next = (.ok t, s')) : t.kind ∈ [.startDynamic, .startDeferred, .eof] := by
  obtain ⟨_, rest, position⟩ := s
  cases mode
  rcases stop with ended | start
  · cases ended
    cases h
    exact .tail _ (.tail _ (.head _))
  · obtain ⟨kind, start⟩ := Option.isSome_iff_exists.mp start
    rcases Lexeme.delimiter?_eq_some start with ⟨-, rest, rfl⟩ | ⟨-, rest, rfl⟩
    · cases h
      exact .head _
    · cases h
      exact .tail _ (.head _)

end Outside

/-- The token belongs to a block and does not close it. -/
def StaysInside (t : Token) : Prop :=
  t.kind ∉ Lexeme.textKinds ∧ t.kind ≠ .endEval

/-- The tokens end inside of a block: its delimiter is among them, and all of the others behind it
belong to the block. -/
def EndsInside (ts : List Token) : Prop :=
  ∃ before opening inner, ts = before ++ opening :: inner ∧
    (opening.kind = .startDynamic ∨ opening.kind = .startDeferred) ∧ ∀ t ∈ inner, StaysInside t

/-- A scanner that is going to fail does so inside of a block. -/
theorem endsInside_of_error (failed : s.tape.final = .error e) :
    EndsInside s.tape.tokens ∨ s.mode = .block ∧ ∀ t ∈ s.tape.tokens, StaysInside t := by
  induction s using tape.induct with
  | case1 s e' s' next =>
    have inside : s.mode = .block := by
      cases mode : s.mode with
      | block => rfl
      | text =>
        obtain ⟨t, s₁, step⟩ := exists_next_of_text mode
        cases next.symm.trans step
    rw [tape_of_error next]
    exact .inr ⟨inside, List.forall_mem_nil _⟩
  | case2 s t s' next kind =>
    rw [tape_of_eof next kind] at failed
    cases failed
  | case3 s t s' next kind ih =>
    rw [tape_of_token next kind] at failed ⊢
    rcases ih failed with ⟨before, opening, inner, parted, start, stays⟩ | ⟨inside, stays⟩
    · exact .inl ⟨t :: before, opening, inner, congrArg (t :: ·) parted, start, stays⟩
    · rw [mode_of_next next kind] at inside
      by_cases outer : t.kind ∈ Lexeme.textKinds
      · -- Only a delimiter leads from outside of blocks to the inside.
        have mode := (mem_textKinds_iff next kind).mp outer
        refine .inl ⟨[], t, _, rfl, ?_, stays⟩
        rw [mode] at inside
        simp only [Lexeme.textKinds, List.mem_cons, List.not_mem_nil, or_false] at outer
        rcases outer with text | start
        · rw [text] at inside
          cases inside
        · exact start
      · have mode : s.mode = .block := by
          cases mode : s.mode with
          | block => rfl
          | text => exact absurd ((mem_textKinds_iff next kind).mpr mode) outer
        have goesOn : t.kind ≠ .endEval := by
          intro close
          rw [close] at inside
          cases inside
        exact .inr ⟨mode, List.forall_mem_cons.mpr ⟨⟨outer, goesOn⟩, stays⟩⟩

end Scanner

end ElTemplate
