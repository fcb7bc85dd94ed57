import ElTemplate.Proofs.Grammar.Mentions
import ElTemplate.Proofs.Template.Binding
import ElTemplate.Proofs.Template.Coherence
import ElTemplate.Proofs.Token.Tiling

/-!
# The order of the inventories

The variables of a template are listed as their names first occur in the source. Its calls are
listed as they are first completed, by their closing parentheses. So what a call has as arguments
comes before the call itself, although its name stands behind, and binding blames it first.
-/

namespace ElTemplate

/-- The entries are those that occur at some position, each once, and ordered by the positions at
which they first occur. -/
structure InOrderOfFirst {α : Type} (occurrences : List (α × Nat)) (entries : List α) : Prop where
  nodup : entries.Nodup
  mem_iff (a : α) : a ∈ entries ↔ ∃ p, (a, p) ∈ occurrences
  ordered : entries.Pairwise fun a b =>
    ∃ p, (a, p) ∈ occurrences ∧ ∀ q, (b, q) ∈ occurrences → p < q

namespace InOrderOfFirst

variable {α : Type} {occurrences : List (α × Nat)} {entries : List α}

/-- Without repetitions, occurrences in order are in order of the first ones. -/
theorem eraseDups [DecidableEq α]
    (ascending : occurrences.Pairwise fun first later => first.2 < later.2) :
    InOrderOfFirst occurrences (occurrences.map Prod.fst).eraseDups := by
  refine ⟨Inventory.nodup_eraseDups _, fun a => by simp, ?_⟩
  induction occurrences using List.reverseRecOn with
  | nil => exact .nil
  | append_singleton occurrences last ih =>
    obtain ⟨c, r⟩ := last
    obtain ⟨before, -, behind⟩ := List.pairwise_append.mp ascending
    -- What comes first among the occurrences so far comes before the last one, too.
    have ahead {a b : α} {p : Nat} (member : (a, p) ∈ occurrences)
        (first : ∀ q, (b, q) ∈ occurrences → p < q) :
        ∃ p, (a, p) ∈ occurrences ++ [(c, r)] ∧
          ∀ q, (b, q) ∈ occurrences ++ [(c, r)] → p < q := by
      refine ⟨p, List.mem_append_left _ member, fun q later => ?_⟩
      rcases List.mem_append.mp later with later | later
      · exact first q later
      · cases List.mem_singleton.mp later
        exact behind (a, p) member (c, r) (List.mem_singleton_self _)
    have old := (ih before).imp fun ⟨_, member, first⟩ => ahead member first
    rw [List.map_append, List.map_singleton, Inventory.eraseDups_concat]
    split
    · exact old
    · next new =>
      refine List.pairwise_append.mpr ⟨old, List.pairwise_singleton _ _, fun a member b same => ?_⟩
      cases List.mem_singleton.mp same
      rw [List.mem_eraseDups, List.mem_map] at member
      obtain ⟨⟨a, p⟩, member, rfl⟩ := member
      exact ahead member fun q later => absurd (List.mem_map_of_mem later) new

/-- The first entry with one property behind entries with another one is found where it first
occurs. -/
theorem exists_first_iff (h : InOrderOfFirst occurrences entries) {P Q : α → Prop} :
    (∃ before a behind, entries = before ++ a :: behind ∧ Q a ∧ ∀ b ∈ before, P b) ↔
      ∃ a p, (a, p) ∈ occurrences ∧ Q a ∧ ∀ b q, (b, q) ∈ occurrences → q < p → P b := by
  constructor
  · rintro ⟨before, a, behind, rfl, holds, earlier⟩
    have occurs : ∃ p, (a, p) ∈ occurrences :=
      (h.mem_iff a).mp (List.mem_append_right _ List.mem_cons_self)
    classical
    refine ⟨a, Nat.find occurs, Nat.find_spec occurs, holds, fun b q member less => ?_⟩
    have listed := (h.mem_iff b).mpr ⟨q, member⟩
    rcases List.mem_append.mp listed with front | back
    · exact earlier b front
    · rcases List.mem_cons.mp back with rfl | back
      · exact absurd less (Nat.not_lt.mpr (Nat.find_min' occurs member))
      · obtain ⟨-, last, -⟩ := List.pairwise_append.mp h.ordered
        obtain ⟨p, first, ahead⟩ := (List.pairwise_cons.mp last).1 b back
        have least := Nat.find_min' occurs first
        have less' := ahead q member
        omega
  · rintro ⟨a, p, member, holds, earlier⟩
    obtain ⟨before, behind, rfl⟩ := List.append_of_mem ((h.mem_iff a).mpr ⟨p, member⟩)
    refine ⟨before, a, behind, rfl, holds, fun b front => ?_⟩
    obtain ⟨-, -, ordered⟩ := List.pairwise_append.mp h.ordered
    obtain ⟨q, first, ahead⟩ := ordered b front a List.mem_cons_self
    exact earlier b q first (ahead p member)

end InOrderOfFirst

namespace Mention

/-- What the uses of names give, each at the position of its last token. -/
def occurrences {α : Type} (f : Mention → Option α) (ms : List Mention) : List (α × Nat) :=
  ms.filterMap fun m => (f m).map (·, m.last.position)

/-- The site of a call. -/
def site? (features : FeatureSet) (m : Mention) : Option CallSite :=
  m.callee?.map (Callee.site features)

theorem filterMap_site? (features : FeatureSet) (ms : List Mention) :
    ms.filterMap (site? features) = (ms.filterMap callee?).map (Callee.site features) :=
  List.map_filterMap.symm

variable {α : Type} {f : Mention → Option α} {ms : List Mention}

theorem map_fst_occurrences : (occurrences f ms).map Prod.fst = ms.filterMap f := by
  rw [occurrences, List.map_filterMap]
  exact List.filterMap_congr fun m _ => by cases f m <;> rfl

/-- Uses in the order of their last tokens give the distinct entries in the order in which they
first occur. -/
theorem inOrderOfFirst [DecidableEq α] {tokens : List Token}
    (ascending : tokens.Pairwise fun first later => first.position < later.position)
    (ordered : (ms.map last).Sublist tokens) :
    InOrderOfFirst (occurrences f ms) (ms.filterMap f).eraseDups := by
  rw [← map_fst_occurrences]
  refine .eraseDups (List.pairwise_filterMap.mpr ?_)
  refine (List.pairwise_map.mp (ascending.sublist ordered)).imp fun less a first b later => ?_
  rw [Option.map_eq_some_iff] at first later
  obtain ⟨_, -, rfl⟩ := first
  obtain ⟨_, -, rfl⟩ := later
  exact less

end Mention

namespace Template

open Grammar
open Mention (occurrences)

variable {features : FeatureSet} {source : String} {t : Template}

/-- The variables of a compiled template are in the order in which their names first occur, and its
calls in the order of the parentheses that first complete them. Binding fails with the first
completed call that cannot be resolved, if there is one. -/
theorem compile_inOrderOfFirst (compiled : compile features source = .ok t) :
    let tokens := (tape source).tokens
    let uses := t.root.mentions tokens
    Mention.Found tokens t.root.identifiers uses ∧
    uses.filterMap Mention.callee? = t.root.callees ∧
    InOrderOfFirst (occurrences Mention.identifier? uses) t.identifiers ∧
    InOrderOfFirst (occurrences (Mention.site? features) uses) t.functions ∧
    ∀ {β : Type} (functions : Option FunctionResolver) (values : Option (VariableResolver β)) e,
      t.bind functions values = .error e ↔
        ∃ site p, (site, p) ∈ occurrences (Mention.site? features) uses ∧
          site.resolve functions = .error e ∧
          ∀ earlier q, (earlier, q) ∈ occurrences (Mention.site? features) uses → q < p →
            ∃ signature, earlier.Resolves functions signature := by
  obtain ⟨tokens, stop, root, deferred, scanned, sentence, -, rfl⟩ := compile_eq_ok_iff.mp compiled
  have found : Mention.Found (tape source).tokens root.identifiers
      (root.mentions (tape source).tokens) := by
    rw [scanned]
    exact sentence.found
  have ascending := (Scanner.ofChars source.toList).pairwise_position_tape.2
  have identifiers := Mention.inOrderOfFirst (f := Mention.identifier?) ascending found.ordered
  have calls := Mention.inOrderOfFirst (f := Mention.site? features) ascending found.ordered
  rw [found.identifiers] at identifiers
  rw [Mention.filterMap_site?, Node.filterMap_callee?_mentions,
    Inventory.eraseDups_map (Callee.site_injective features)] at calls
  intro _ uses
  have callees : uses.filterMap Mention.callee? = (ofRoot features root deferred).root.callees :=
    Node.filterMap_callee?_mentions _ _
  revert callees
  simp only [uses, ofRoot_eq, Node.mentions_reindex, Node.identifiers_reindex]
  refine fun callees => ⟨found, callees, identifiers, calls, fun functions values e => ?_⟩
  rw [bind_eq_error_iff, CallSite.resolveAll_eq_error_iff]
  exact calls.exists_first_iff

theorem tape_of_nested : tape "$\x7bf(g())\x7d" =
    ⟨[⟨.startDynamic, "$\x7b", 0⟩, ⟨.identifier, "f", 2⟩, ⟨.leftParen, "(", 3⟩,
      ⟨.identifier, "g", 4⟩, ⟨.leftParen, "(", 5⟩, ⟨.rightParen, ")", 6⟩, ⟨.rightParen, ")", 7⟩,
      ⟨.endEval, "\x7d", 8⟩], .ok 9⟩ :=
  Scanner.tape_of_steps 9 rfl

theorem compile_nested : compile features "$\x7bf(g())\x7d" =
    .ok ⟨.eval false (.call none "f" 1 [.call none "g" 0 []]), false, [],
      [⟨none, "g", 0, features.varargs⟩, ⟨none, "f", 1, features.varargs⟩]⟩ := by
  have argument : Derives features .expression [⟨.identifier, "g", 4⟩, ⟨.leftParen, "(", 5⟩,
      ⟨.rightParen, ")", 6⟩, ⟨.rightParen, ")", 7⟩, ⟨.endEval, "\x7d", 8⟩]
      [.call none "g" 0 []] [⟨.rightParen, ")", 7⟩, ⟨.endEval, "\x7d", 8⟩] :=
    .condition ((Derives.value (.primary (.call rfl (.noArguments rfl rfl)))).chain _)
  have fits : (Node.call none "f" 0 [.call none "g" 0 []]).Fits 1 1 := by
    simp only [Node.Fits, Node.FitAll]
    decide
  rw [compile_of_value tape_of_nested rfl
    (.primary (.call rfl (.arguments rfl argument .noFurther rfl))) rfl fits, ofRoot_eq]
  rfl

/-- A call as the argument of another one is completed first. -/
theorem compile_inOrderOfFirst_nested :
    let t : Template := ⟨.eval false (.call none "f" 1 [.call none "g" 0 []]), false, [],
      [⟨none, "g", 0, false⟩, ⟨none, "f", 1, false⟩]⟩
    let uses := t.root.mentions (tape "$\x7bf(g())\x7d").tokens
    compile .none "$\x7bf(g())\x7d" = .ok t ∧
    uses = [⟨some ⟨none, "g", 0⟩, ⟨.identifier, "g", 4⟩, ⟨.rightParen, ")", 6⟩⟩,
      ⟨some ⟨none, "f", 1⟩, ⟨.identifier, "f", 2⟩, ⟨.rightParen, ")", 7⟩⟩] ∧
    InOrderOfFirst (occurrences (Mention.site? .none) uses) t.functions ∧
    t.bind (β := Nat) none none = .error (.unknownFunction "g") := by
  refine ⟨compile_nested, ?_, (compile_inOrderOfFirst compile_nested).2.2.2.1, rfl⟩
  rw [tape_of_nested]
  rfl

end Template

end ElTemplate
