import ElTemplate.Proofs.Grammar.Alike
import ElTemplate.Proofs.Grammar.Language
import ElTemplate.Proofs.Token.Equivalent

/-!
# Equivalent sources

A source whose tokens are spelled in other ways compiles to the same template. So the tree, the
names and the canonical text, with names bound or not, do not depend on white space inside of
blocks, on whether operators are words or signs, and on the quotes around strings.
-/

namespace ElTemplate

/-- The second source spells the tokens of the first one again, in equivalent ways. -/
def Respelling (source source' : String) : Prop :=
  ∃ tiles s, (Scanner.ofChars source.toList).Lays tiles s ∧ s.rest = [] ∧
    Respells .text tiles source'.toList

namespace Template

open Grammar

variable {features : FeatureSet} {source source' : String} {t : Template}

/-- Equivalent sources have alike tokens. -/
theorem tape_respelling (respelling : Respelling source source') :
    ∃ ts us stop stop', tape source = ⟨ts, .ok stop⟩ ∧ tape source' = ⟨us, .ok stop'⟩ ∧
      List.Forall₂ Token.Alike ts us := by
  obtain ⟨tiles, s, lays, ended, respells⟩ := respelling
  obtain ⟨us, q, emits, alike⟩ := lays.emits ended respells 0
  have proper : ∀ t ∈ tiles.map Tile.token, t.kind ≠ .eof :=
    List.forall_mem_map.mpr lays.ne_eof
  have proper' : ∀ u ∈ us, u.kind ≠ .eof := by
    intro u mem
    have kind : u.kind ∈ (tiles.map Tile.token).map Token.kind := by
      rw [Scanner.kinds_of_forall₂ alike]
      exact List.mem_map_of_mem mem
    obtain ⟨t, mem', same⟩ := List.mem_map.mp kind
    exact same ▸ proper t mem'
  exact ⟨_, us, _, q, lays.tokens.tape_of_ended proper ended, emits.tape_of_ended proper' rfl,
    alike⟩

/-- An equivalent source compiles to the same template, so that its tree, its names and its
canonical text under all bindings are the same. -/
theorem compile_respelling (compiled : compile features source = .ok t)
    (respelling : Respelling source source') :
    ∃ t', compile features source' = .ok t' ∧ t' = t ∧ t'.canonical = t.canonical ∧
      ∀ {β : Type} (b : Bindings β), t'.spelling b = t.spelling b := by
  obtain ⟨ts, us, stop, stop', scanned, scanned', alike⟩ := tape_respelling respelling
  obtain ⟨tokens, stop'', root, deferred, scanned'', sentence, fits, rfl⟩ :=
    compile_eq_ok_iff.mp compiled
  cases scanned.symm.trans scanned''
  have again : compile features source' = .ok (.ofRoot features root deferred) :=
    compile_eq_ok_iff.mpr ⟨us, stop', root, deferred, scanned', sentence.alike alike, fits, rfl⟩
  exact ⟨_, again, rfl, rfl, fun _ => rfl⟩

/-- The tiles of a comparison. -/
def comparison : List Tile :=
  [⟨[], ['$', '\x7b'], ⟨.startDynamic, "$\x7b", 0⟩⟩, ⟨[], ['1'], ⟨.integer, "1", 2⟩⟩,
   ⟨[], ['.'], ⟨.dot, ".", 3⟩⟩, ⟨[], ['a'], ⟨.identifier, "a", 4⟩⟩,
   ⟨[' '], ['e', 'q'], ⟨.eq, "eq", 6⟩⟩, ⟨[' '], ['\'', 'x', '\''], ⟨.string, "x", 9⟩⟩,
   ⟨[], ['\x7d'], ⟨.endEval, "\x7d", 12⟩⟩]

theorem lays_comparison :
    (Scanner.ofChars "$\x7b1.a eq 'x'\x7d".toList).Lays comparison ⟨.text, [], 13⟩ :=
  Scanner.lays_of_steps 7 (by decide +kernel)

theorem respelling_comparison :
    Respelling "$\x7b1.a eq 'x'\x7d" "$\x7b1 . a == \"x\"\x7d" := by
  have space {tile : Tile} : tile.Respaced [' '] :=
    ⟨List.forall_mem_singleton.mpr (by decide), fun _ => List.cons_ne_nil _ _⟩
  have none {tile : Tile} (tight : tile.gap = []) : tile.Respaced [] :=
    ⟨List.forall_mem_nil _, fun some => absurd tight some⟩
  have equals : (Token.Kind.eq, ['e', 'q'], ['=', '=']) ∈ Lexical.aliases := by decide
  have some {c : Char} : [c] ≠ [] := List.cons_ne_nil c []
  have quoted : Lexical.Quoted '"' ['x'] ['x'] := .plain (by decide) (by decide) .nil
  have respells : Respells .text comparison (['$', '\x7b'] ++ ([] ++ (['1'] ++ ([' '] ++ (['.'] ++
      ([' '] ++ (['a'] ++ ([' '] ++ (['=', '='] ++ ([' '] ++ (('"' :: (['x'] ++ ['"'])) ++
        ([] ++ (['\x7d'] ++ []))))))))))))) :=
    .text (.block (none rfl) (.same nofun) (.block space (.same nofun) (.block space (.same nofun)
      (.block space (.operator equals (.inr rfl) some (by decide))
        (.block space (.string rfl (.inl rfl) quoted) (.block (none rfl) (.same nofun) .nil))))))
  exact ⟨comparison, _, lays_comparison, rfl, respells⟩

theorem compile_comparison : ∃ t, compile .none "$\x7b1.a eq 'x'\x7d" = .ok t := by
  have scanned : tape "$\x7b1.a eq 'x'\x7d" = _ :=
    lays_comparison.tokens.tape_of_ended (by decide) rfl
  have literal : Derives .none .primary (comparison.map Tile.token).tail [.literal (.integer 1)]
      (comparison.map Tile.token).tail.tail := .literal rfl
  have text : Derives .none .primary [⟨.string, "x", 9⟩, ⟨.endEval, "\x7d", 12⟩]
      [.literal (.string "x")] [⟨.endEval, "\x7d", 12⟩] := .literal rfl
  have property : Derives .none .value (comparison.map Tile.token).tail _ _ :=
    .property (.primary literal) rfl rfl
  have compared : Derives .none (.chain 4) _ [.binary .eq _ _] _ :=
    .binary ((Derives.value property).chain 4) rfl rfl ((Derives.value (.primary text)).chain 3)
  have sentence : Sentence .none (comparison.map Tile.token) _ false :=
    .block (.mk rfl (.condition (.lift (.lift compared))) rfl)
  refine ⟨_, (compile_of_sentence scanned sentence).reaches ?_⟩
  simp only [Node.Fits, Node.steps, Node.folds]
  decide

/-- Other white space, the sign of an operator, and the other quotes around a string. -/
theorem compile_respelling_comparison :
    Respelling "$\x7b1.a eq 'x'\x7d" "$\x7b1 . a == \"x\"\x7d" ∧
    ∃ t t', compile .none "$\x7b1.a eq 'x'\x7d" = .ok t ∧
      compile .none "$\x7b1 . a == \"x\"\x7d" = .ok t' ∧ t' = t := by
  obtain ⟨t, compiled⟩ := compile_comparison
  obtain ⟨t', again, same, -⟩ := compile_respelling compiled respelling_comparison
  exact ⟨respelling_comparison, t, t', compiled, again, same⟩

end Template

end ElTemplate
