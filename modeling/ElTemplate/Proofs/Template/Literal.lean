import ElTemplate.Proofs.Template.Concatenation
import ElTemplate.Proofs.Token.Delimiter

/-!
# Templates without blocks

A source is text and nothing else exactly if no block begins in it. A delimiter that is left in a
text is then the tail of an escape, so reading the escapes takes a backslash away from each of them.
-/

namespace ElTemplate

namespace Template

open Grammar Text
open ElTemplate.Parser (startKind)

variable {features : FeatureSet} {source : String} {t : Template} {token : Token}

/-- In a source in which no block begins there is at most one token, the whole source. -/
theorem tape_of_sealed (h : Sealed source.toList) : tape source =
    ⟨if source = "" then [] else [⟨.text, source, 0⟩], .ok source.length⟩ := by
  by_cases none : source = ""
  · subst none
    exact Scanner.tape_of_eof (Scanner.next_of_rest_nil rfl) rfl
  · have inside : 0 < source.toList.length := by
      rw [List.length_pos_iff]
      exact fun empty => none (String.toList_inj.mp empty)
    have plain : ∀ deferred, ¬ DelimiterAt deferred source.toList 0 := fun deferred found =>
      h 0 ⟨⟨deferred, found⟩, Even.zero⟩
    obtain ⟨q, ends, first⟩ := Scanner.next_of_plain inside plain
    obtain rfl := ends.stops.resolve_left (h q)
    have whole : String.ofList (source.toList.extract 0 source.toList.length) = source := by
      simp [List.extract_eq_take_drop]
    rw [whole, List.drop_length] at first
    rw [if_neg none]
    exact (Scanner.tape_of_token first nofun).trans
      (congrArg (Tape.push _) (Scanner.tape_of_eof (Scanner.next_of_rest_nil rfl) rfl))

theorem compile_of_sealed (h : Sealed source.toList) :
    compile features source = .ok (.ofRoot features (.text source) false) := by
  have scanned := tape_of_sealed h
  have sentence : Sentence features (if source = "" then [] else [⟨.text, source, 0⟩])
      (.text source) false := by
    by_cases none : source = ""
    · subst none
      exact .empty
    · rw [if_neg none]
      exact .text rfl
  exact (compile_of_sentence scanned sentence).reaches trivial

theorem sealed_of_compile (compiled : compile features source = .ok t) (literal : t.isLiteralText) :
    Sealed source.toList := by
  obtain ⟨tokens, stop, root, deferred, scanned, sentence, -, rfl⟩ := compile_eq_ok_iff.mp compiled
  rw [isLiteralText_ofRoot] at literal
  intro q opens
  obtain ⟨t, member, other⟩ := Scanner.exists_mem_tape_of_opensAt opens (Nat.zero_le q)
  rw [show Scanner.tape ⟨.text, source.toList.drop 0, 0⟩ = _ from scanned] at member
  exact other (sentence.kind_eq_text literal t member)

theorem exists_isLiteralText_iff :
    (∃ t, compile features source = .ok t ∧ t.isLiteralText) ↔ Sealed source.toList :=
  ⟨fun ⟨_, compiled, literal⟩ => sealed_of_compile compiled literal,
    fun h => ⟨_, compile_of_sealed h, rfl⟩⟩

theorem canonical_of_isLiteralText (compiled : compile features source = .ok t)
    (literal : t.isLiteralText) : t.canonical = source := by
  cases (compile_of_sealed (sealed_of_compile compiled literal)).symm.trans compiled
  rfl

/-- In no text that is read a block begins. -/
theorem sealed_of_mem_tape (member : token ∈ (tape source).tokens) (text : token.kind = .text) :
    Sealed token.image.toList := by
  obtain ⟨f, stands⟩ :=
    (Scanner.ofChars source.toList).textsStand_tape.stands token member text
  exact stands.sealed

/-- Blocks begin at delimiters before which no backslash is left over. Where the scanner stands in
text, it gives a delimiter exactly if one is there, and otherwise the text up to the first place
where a block begins. So a source is a literal text exactly if no block begins in it, and is its own
canonical text then. In a text that is read, every delimiter is the tail of an escape, of which
`unescape` leaves only this tail. -/
theorem blocks_begin_unescaped (features : FeatureSet) (source : String) :
    (∀ p < source.length,
      (∀ deferred, Scanner.next ⟨.text, source.toList.drop p, p⟩ =
          (.ok ⟨startKind deferred, String.ofList (opener deferred), p⟩,
            ⟨.block, source.toList.drop (p + 2), p + 2⟩) ↔
        DelimiterAt deferred source.toList p) ∧
      ((∀ deferred, ¬ DelimiterAt deferred source.toList p) →
        ∃ q, Ends source.toList p q ∧ Scanner.next ⟨.text, source.toList.drop p, p⟩ =
          (.ok ⟨.text, String.ofList (source.toList.extract p q), p⟩,
            ⟨.text, source.toList.drop q, q⟩))) ∧
    ((∃ t, compile features source = .ok t ∧ t.isLiteralText) ↔ Sealed source.toList) ∧
    (∀ t, compile features source = .ok t → t.isLiteralText → t.canonical = source) ∧
    ∀ token ∈ (tape source).tokens, token.kind = .text →
      (pieces token.image.toList).flatMap Piece.raw = token.image.toList ∧
      (pieces token.image.toList).flatMap Piece.meaning = (unescapeString token.image).toList ∧
      ∀ deferred q, DelimiterAt deferred token.image.toList q →
        EscapedAt deferred token.image.toList q := by
  refine ⟨fun p inside => ?_, exists_isLiteralText_iff, fun t => canonical_of_isLiteralText, ?_⟩
  · rw [← String.length_toList] at inside
    exact ⟨fun deferred => Scanner.next_eq_delimiter_iff inside, Scanner.next_of_plain inside⟩
  · intro token member text
    refine ⟨flatMap_raw_pieces _, ?_, fun deferred q => (sealed_of_mem_tape member text).escapedAt⟩
    rw [flatMap_meaning_pieces, unescapeString, String.toList_ofList]

/-- An escaped delimiter in front of one that opens a block. -/
theorem blocks_begin_unescaped_escape :
    Scanner.next ⟨.text, "\\$\x7b$\x7b".toList.drop 3, 3⟩ =
      (.ok ⟨.startDynamic, String.ofList (opener false), 3⟩,
        ⟨.block, "\\$\x7b$\x7b".toList.drop 5, 5⟩) ∧
    EscapedAt false "\\$\x7b".toList 1 := by
  obtain ⟨steps, -, -, texts⟩ := blocks_begin_unescaped .none "\\$\x7b$\x7b"
  have scanned : tape "\\$\x7b$\x7b" =
      ⟨[⟨.text, "\\$\x7b", 0⟩, ⟨.startDynamic, "$\x7b", 3⟩], .ok 5⟩ :=
    Scanner.tape_of_steps 3 rfl
  rw [scanned] at texts
  exact ⟨((steps 3 (by decide)).1 false).mpr (by decide),
    (texts _ List.mem_cons_self rfl).2.2 false 1 (by decide)⟩

end Template

end ElTemplate
