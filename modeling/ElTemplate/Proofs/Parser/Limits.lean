import ElTemplate.Proofs.Parser.Position

/-!
# Running into a limit

A parser that is on its way to a result either gets there or runs into one of the two limits, and
a condition on the tree says which. Such statements compose: the conditions of the parts hold
together exactly if no part runs into a limit.
-/

namespace ElTemplate

/-- Whether the error says that one of the two limits has been reached. -/
def CompileError.IsLimit : CompileError → Prop
  | .scan _ => False
  | .parse e => e.expected = .nestingLimit ∨ e.expected = .depthLimit

namespace Parser

open ParserState (before)

variable {α β : Type}

/-- The outcome is the given one where the condition holds, and otherwise a limit's error. -/
structure Leads (outcome : Except CompileError α) (fits : Prop)
    (result : Except CompileError α) : Prop where
  reaches : fits → outcome = result
  stops : ¬ fits → ∃ e, CompileError.IsLimit e ∧ outcome = .error e

namespace Leads

variable {a : α} {p : Parser Tape α} {k : α → Parser Tape β} {s s' : ParserState Tape}
  {fits fits' : Prop}

theorem of_eq {outcome result : Except CompileError α} (h : outcome = result) :
    Leads outcome True result :=
  ⟨fun _ => h, fun h => absurd trivial h⟩

theorem congr {outcome result : Except CompileError α} (h : Leads outcome fits result)
    (same : fits' ↔ fits) : Leads outcome fits' result :=
  ⟨fun h' => h.reaches (same.mp h'), fun h' => h.stops fun hf => h' (same.mpr hf)⟩

/-- The second condition matters only if the first one holds. -/
theorem trans {outcome middle result : Except CompileError α} (first : Leads outcome fits middle)
    (second : fits → Leads middle fits' result) : Leads outcome (fits ∧ fits') result := by
  constructor
  · rintro ⟨h, h'⟩
    exact (first.reaches h).trans ((second h).reaches h')
  · intro h
    by_cases hf : fits
    · obtain ⟨e, limit, stopped⟩ := (second hf).stops fun hf' => h ⟨hf, hf'⟩
      exact ⟨e, limit, (first.reaches hf).trans stopped⟩
    · exact first.stops hf

/-- A sequence goes on from where its first part leads. -/
theorem bind {result : Except CompileError (β × ParserState Tape)}
    (first : Leads (p s) fits (.ok (a, s'))) (next : fits → Leads (k a s') fits' result) :
    Leads ((p >>= k) s) (fits ∧ fits') result := by
  constructor
  · rintro ⟨h, h'⟩
    rw [bind_of_ok (first.reaches h)]
    exact (next h).reaches h'
  · intro h
    by_cases hf : fits
    · rw [bind_of_ok (first.reaches hf)]
      exact (next hf).stops fun hf' => h ⟨hf, hf'⟩
    · obtain ⟨e, limit, stopped⟩ := first.stops hf
      exact ⟨e, limit, bind_of_error stopped⟩

/-- A first part that cannot fail adds no condition. -/
theorem bind_ok {result : Except CompileError (β × ParserState Tape)}
    (first : p s = .ok (a, s')) (next : Leads (k a s') fits result) :
    Leads ((p >>= k) s) fits result := by
  rw [bind_of_ok first]
  exact next

/-- Nothing that can fail comes after the first part. -/
theorem bind_pure {result : Except CompileError (β × ParserState Tape)}
    (first : Leads (p s) fits (.ok (a, s'))) (next : k a s' = result) :
    Leads ((p >>= k) s) fits result :=
  (first.bind fun _ => of_eq next).congr (and_true fits).to_iff.symm

end Leads

theorem refuse_nesting (s : ParserState Tape) :
    ∃ e, CompileError.IsLimit e ∧ (refuse .nestingLimit : Parser Tape α) s = .error e :=
  ⟨.parse ⟨_, .nestingLimit⟩, Or.inl rfl, rfl⟩

theorem refuse_depth (s : ParserState Tape) :
    ∃ e, CompileError.IsLimit e ∧ (refuse .depthLimit : Parser Tape α) s = .error e :=
  ⟨.parse ⟨_, .depthLimit⟩, Or.inr rfl, rfl⟩

variable {ts rest : List Token} {final : Except ScanError Nat} {names names' : Names}
  {nesting depth levels : Nat} {a : α} {fits : Prop}

theorem leads_deepen :
    Leads (deepen (before ts final names nesting depth)) (depth < maxDepth)
      (.ok ((), before ts final names nesting (depth + 1))) := by
  rw [deepen_before]
  constructor
  · intro h
    rw [if_pos h]
  · intro h
    rw [if_neg h]
    exact refuse_depth _

theorem leads_enter :
    Leads (enter (before ts final names nesting depth)) (nesting < maxNesting ∧ depth < maxDepth)
      (.ok ((), before ts final names (nesting + 1) (depth + 1))) := by
  by_cases room : nesting < maxNesting
  · have entered : enter (before ts final names nesting depth) =
        deepen (before ts final names (nesting + 1) depth) := if_pos room
    rw [entered]
    exact leads_deepen.congr (by simp only [room, true_and])
  · have refused : enter (before ts final names nesting depth) =
        refuse .nestingLimit (before ts final names nesting depth) := if_neg room
    rw [refused]
    exact ⟨fun h => absurd h.1 room, fun _ => refuse_nesting _⟩

/-- One level deeper there has to be room for both counts. -/
theorem leads_deeper {p : Nat → Parser Tape α} (hlevels : levels + nesting = maxNesting)
    (inner : ∀ levels, levels + (nesting + 1) = maxNesting → depth + 1 ≤ maxDepth →
      Leads (p levels (before ts final names (nesting + 1) (depth + 1))) fits
        (.ok (a, before rest final names' (nesting + 1) (depth + 1)))) :
    Leads (deeper p levels (before ts final names nesting depth))
      (nesting < maxNesting ∧ depth < maxDepth ∧ fits)
      (.ok (a, before rest final names' nesting depth)) := by
  cases levels with
  | zero =>
    have full : ¬ nesting < maxNesting := by omega
    exact ⟨fun h => absurd h.1 full, fun _ => refuse_nesting _⟩
  | succ levels =>
    have left : levels + (nesting + 1) = maxNesting := by omega
    refine (leads_enter.bind fun room => ?_).congr and_assoc.symm
    exact (inner levels left room.2).bind_pure rfl

end Parser

end ElTemplate
