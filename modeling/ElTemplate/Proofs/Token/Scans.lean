import ElTemplate.Proofs.Token.Respell
import Mathlib.Data.List.Forall2

/-!
# Scanning a text as given tokens

Whether a text is scanned as tokens that a parser cannot tell from given ones, or goes wrong at a
token of another kind. A judgment of this kind carries the condition under which the text is scanned
right, and judgments about texts that follow one another compose: the first text that goes wrong
decides.
-/

namespace ElTemplate

/-- Tokens that a parser cannot tell apart but for their places. -/
structure Token.Alike (t u : Token) : Prop where
  kind : t.kind = u.kind
  image : t.kind = .identifier ∨ t.kind = .text → t.image = u.image
  literal : Literal.ofToken? t = Literal.ofToken? u

namespace Scanner

variable {good good' : Prop} {mode mode₁ mode' : Mode} {cs cs' f : List Char}
  {us us' : List Token}

/-- The tape is what is given first and what is given from then on. -/
theorem Emits.tape_eq {s s' : Scanner} (h : s.Emits us s') (proper : ∀ u ∈ us, u.kind ≠ .eof) :
    s.tape = ⟨us ++ s'.tape.tokens, s'.tape.final⟩ := by
  induction h with
  | nil => rfl
  | cons next _ ih =>
    obtain ⟨kind, proper⟩ := List.forall_mem_cons.mp proper
    rw [tape_of_token next kind, ih proper]
    rfl

theorem Emits.tape_of_ended {s s' : Scanner} (h : s.Emits us s')
    (proper : ∀ u ∈ us, u.kind ≠ .eof) (ended : s'.rest = []) :
    s.tape = ⟨us, .ok s'.position⟩ := by
  rw [h.tape_eq proper, tape_of_eof (next_of_rest_nil ended) rfl, List.append_nil]
  rfl

/-- The text before `f` is scanned as tokens like these, wherever it stands. -/
def Reads (mode : Mode) (cs : List Char) (us : List Token) (mode' : Mode) (f : List Char) : Prop :=
  ∀ p, ∃ vs q, Emits ⟨mode, cs ++ f, p⟩ vs ⟨mode', f, q⟩ ∧ (∀ v ∈ vs, v.kind ≠ .eof) ∧
    List.Forall₂ Token.Alike us vs

/-- The text before `f` is not scanned as tokens of these kinds. -/
def Misreads (mode : Mode) (cs : List Char) (us : List Token) (f : List Char) : Prop :=
  ∀ p, ¬ us.map Token.kind <+:
    (⟨mode, cs ++ f, p⟩ : Scanner).tape.tokens.map Token.kind

/-- The text before `f` is scanned as tokens like these exactly under the condition. -/
structure Scans (good : Prop) (mode : Mode) (cs : List Char) (us : List Token) (mode' : Mode)
    (f : List Char) : Prop where
  reads : good → Reads mode cs us mode' f
  misreads : ¬ good → Misreads mode cs us f

theorem kinds_of_forall₂ (h : List.Forall₂ Token.Alike us us') :
    us.map Token.kind = us'.map Token.kind := by
  induction h with
  | nil => rfl
  | cons alike _ ih => rw [List.map_cons, List.map_cons, alike.kind, ih]

namespace Scans

theorem congr (h : Scans good mode cs us mode' f) (same : good' ↔ good) :
    Scans good' mode cs us mode' f :=
  ⟨fun hg => h.reads (same.mp hg), fun hg => h.misreads fun hg' => hg (same.mpr hg')⟩

/-- Nothing is scanned as nothing. -/
theorem nil : Scans True mode [] [] mode f :=
  ⟨fun _ p => ⟨[], p, .nil, nofun, .nil⟩, fun h => absurd trivial h⟩

/-- The second text matters only if the first one is scanned right. -/
theorem append (first : Scans good mode cs us mode₁ (cs' ++ f))
    (second : good → Scans good' mode₁ cs' us' mode' f) :
    Scans (good ∧ good') mode (cs ++ cs') (us ++ us') mode' f := by
  constructor
  · rintro ⟨hg, hg'⟩ p
    obtain ⟨vs, q, emits, proper, alike⟩ := first.reads hg p
    obtain ⟨vs', q', emits', proper', alike'⟩ := (second hg).reads hg' q
    rw [List.append_assoc]
    exact ⟨vs ++ vs', q', emits.append emits', List.forall_mem_append.mpr ⟨proper, proper'⟩,
      List.rel_append alike alike'⟩
  · intro bad p
    rw [List.append_assoc, List.map_append]
    by_cases hg : good
    · obtain ⟨vs, q, emits, proper, alike⟩ := first.reads hg p
      have wrong := (second hg).misreads (fun hg' => bad ⟨hg, hg'⟩) q
      rw [emits.tape_eq proper, List.map_append, ← kinds_of_forall₂ alike]
      intro longer
      exact wrong ((List.prefix_append_right_inj _).mp longer)
    · intro longer
      exact first.misreads hg p ((List.prefix_append _ _).trans longer)

/-- A space before a token inside a block is passed over. -/
theorem blank (h : Scans good .block cs us mode' f) (some : us ≠ []) :
    Scans good .block (' ' :: cs) us mode' f := by
  have space : ∀ c ∈ [' '], Text.isBlank c := List.forall_mem_singleton.mpr (by decide)
  have skip (rest : List Char) (p : Nat) :
      next ⟨.block, ' ' :: rest, p⟩ = next ⟨.block, rest, p + 1⟩ := next_blanks space rest p
  constructor
  · intro hg p
    obtain ⟨vs, q, emits, proper, alike⟩ := h.reads hg (p + 1)
    refine ⟨vs, q, ?_, proper, alike⟩
    cases alike with
    | nil => exact absurd rfl some
    | cons _ _ =>
      cases emits with
      | cons next further => exact .cons ((skip _ p).trans next) further
  · intro hg p
    rw [List.cons_append, tape_congr (skip _ p)]
    exact h.misreads hg (p + 1)

end Scans

end Scanner

end ElTemplate
