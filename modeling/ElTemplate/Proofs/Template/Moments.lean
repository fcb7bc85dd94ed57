import ElTemplate.Proofs.Node.Moments
import ElTemplate.Proofs.Template.Shape

/-!
# The limits are exact

Whether a limit stops a source whose tokens are a sentence can be told from the tree of the
sentence: the limits ask of each block that at no moment too much of it is open. One block does not
count for another, and within a block nothing counts for what stands beside it.
-/

namespace ElTemplate

namespace Node

open Moment (AllWithin)

theorem fitParts_iff {nesting depth : Nat} {xs : List Node} :
    FitParts nesting depth xs ↔ ∀ x ∈ xs, x.Fits nesting depth := by
  induction xs with
  | nil => simp [FitParts]
  | cons x xs ih => rw [FitParts, ih, List.forall_mem_cons]

/-- A template fits the limits if all moments of its parts do. -/
theorem fits_iff_moments (x : Node) :
    x.Fits 0 0 ↔ ∀ part ∈ x.parts, AllWithin 0 0 part.moments := by
  rw [← fitParts_parts, fitParts_iff]
  refine forall₂_congr fun part _ => ?_
  rw [allWithin_moments, HasRoom]
  exact (and_iff_right ⟨Nat.zero_le _, Nat.zero_le _⟩).symm

theorem IsTemplate.isPart_parts {x : Node} {deferred : Bool} (h : x.IsTemplate deferred) :
    ∀ part ∈ x.parts, part.IsPart deferred := by
  cases h with
  | text raw =>
    rw [parts]
    split
    · exact List.forall_mem_nil _
    · next some => exact List.forall_mem_singleton.mpr (.text some)
  | block inner => exact List.forall_mem_singleton.mpr (.block inner)
  | composite _ each _ _ => exact each

end Node

theorem CompileError.IsLimit.exists_parse {e : CompileError} (h : e.IsLimit) :
    ∃ pe, e = .parse pe ∧ (pe.expected.describe = "at most 128 nesting levels" ∨
      pe.expected.describe = "at most 1000 tree levels") := by
  cases e with
  | scan e => exact h.elim
  | parse pe =>
    refine ⟨pe, rfl, h.imp ?_ ?_⟩
    · intro nesting
      rw [nesting]
      decide
    · intro depth
      rw [depth]
      decide

namespace Template

open Grammar
open Moment (AllWithin)

variable {features : FeatureSet} {source : String} {tokens : List Token} {stop : Nat} {root : Node}
  {deferred : Bool}

/-- Only the blocks of a template can be too deep. -/
theorem fits_iff_blocks (template : root.IsTemplate deferred) :
    root.Fits 0 0 ↔ ∀ d child, .eval d child ∈ root.parts →
      ∀ m ∈ (Node.eval d child).moments,
        m.levels ≤ 128 ∧ m.levels + m.folds + m.steps ≤ 1000 := by
  have within (m : Moment) :
      m.Within 0 0 ↔ m.levels ≤ 128 ∧ m.levels + m.folds + m.steps ≤ 1000 := by
    rw [Moment.Within, Nat.zero_add, Nat.zero_add]
    rfl
  simp only [Node.fits_iff_moments, AllWithin, within]
  constructor
  · exact fun all d child member => all _ member
  · intro blocks part member
    cases template.isPart_parts part member with
    | text some =>
      rw [Node.moments]
      exact List.forall_mem_singleton.mpr (by decide)
    | block _ => exact blocks _ _ member

/-- A source that scans to a sentence compiles exactly if the levels of nesting that are open in a
block are never more than 128, and never more than 1000 together with the operators and the access
steps. Otherwise one of the two limits is reported. -/
theorem compile_ok_iff_moments (scanned : tape source = ⟨tokens, .ok stop⟩)
    (sentence : Sentence features tokens root deferred) :
    ((∃ t, compile features source = .ok t) ↔
      ∀ d child, .eval d child ∈ root.parts → ∀ m ∈ (Node.eval d child).moments,
        m.levels ≤ 128 ∧ m.levels + m.folds + m.steps ≤ 1000) ∧
    ((¬ ∃ t, compile features source = .ok t) →
      ∃ e, compile features source = .error (.parse e) ∧
        (e.expected.describe = "at most 128 nesting levels" ∨
          e.expected.describe = "at most 1000 tree levels")) := by
  have leads := compile_of_sentence scanned sentence
  rw [← fits_iff_blocks (isTemplate_of_sentence scanned sentence)]
  by_cases fits : root.Fits 0 0
  · have compiled := leads.reaches fits
    exact ⟨iff_of_true ⟨_, compiled⟩ fits, fun none => absurd ⟨_, compiled⟩ none⟩
  · obtain ⟨e, limit, stopped⟩ := leads.stops fits
    obtain ⟨pe, rfl, text⟩ := limit.exists_parse
    refine ⟨iff_of_false ?_ fits, fun _ => ⟨pe, stopped, text⟩⟩
    rintro ⟨t, compiled⟩
    cases compiled.symm.trans stopped

/-- A variable in a block is one level deep. -/
theorem compile_ok_iff_moments_variable :
    tape "$\x7ba\x7d" =
      ⟨[⟨.startDynamic, "$\x7b", 0⟩, ⟨.identifier, "a", 2⟩, ⟨.endEval, "\x7d", 3⟩], .ok 4⟩ ∧
    ∀ d child, .eval d child ∈ (Node.eval false (.identifier "a" 0)).parts →
      ∀ m ∈ (Node.eval d child).moments, m.levels ≤ 128 ∧ m.levels + m.folds + m.steps ≤ 1000 := by
  have sentence : Sentence .none
      [⟨.startDynamic, "$\x7b", 0⟩, ⟨.identifier, "a", 2⟩, ⟨.endEval, "\x7d", 3⟩]
      (.eval false (.identifier "a" 0)) false :=
    .ofValue rfl (.primary (.identifier rfl nofun)) rfl
  exact ⟨tape_of_variable,
    (compile_ok_iff_moments tape_of_variable sentence).1.mp ⟨_, compile_variable⟩⟩

end Template

end ElTemplate
