import ElTemplate.Text.Blank
import Mathlib.Data.List.TakeWhile

/-!
# Items and the white space around them

Trimming finds the one part of a text that neither begins nor ends with white space and has nothing
but white space around it. Splitting finds the one list of items without separator that a text joins
by separators.
-/

namespace ElTemplate.Text

variable {cs core : List Char} {c : Char}

/-- The text is the core with white space around it, which the core neither begins nor ends with. -/
structure Pads (cs core : List Char) : Prop where
  around : ∃ front behind, cs = front ++ core ++ behind ∧ (∀ c ∈ front, isBlank c) ∧
    ∀ c ∈ behind, isBlank c
  head : ∀ c ∈ core.head?, isBlank c = false
  last : ∀ c ∈ core.getLast?, isBlank c = false

section Trim

theorem dropWhile_isBlank (cs : List Char) :
    ∃ front, cs = front ++ cs.dropWhile isBlank ∧ (∀ c ∈ front, isBlank c) ∧
      ∀ c ∈ (cs.dropWhile isBlank).head?, isBlank c = false := by
  refine ⟨cs.takeWhile isBlank, List.takeWhile_append_dropWhile.symm,
    List.all_eq_true.mp List.all_takeWhile, fun c first => ?_⟩
  have other := List.head?_dropWhile_not isBlank cs
  rw [Option.mem_def.mp first] at other
  simpa using other

theorem dropWhile_isBlank_append {front : List Char} (blank : ∀ c ∈ front, isBlank c)
    (head : ∀ c ∈ cs.head?, isBlank c = false) : (front ++ cs).dropWhile isBlank = cs := by
  rw [List.dropWhile_append_of_pos blank]
  cases cs with
  | nil => rfl
  | cons c cs =>
    have other : ¬ isBlank c := by simpa using head c rfl
    exact List.dropWhile_cons_of_neg other

/-- A text pads what trimming leaves of it. -/
theorem pads_trimChars (cs : List Char) : Pads cs (trimChars cs) := by
  obtain ⟨front, split, blank, head⟩ := dropWhile_isBlank cs
  obtain ⟨behind, split', blank', last⟩ := dropWhile_isBlank (cs.dropWhile isBlank).reverse
  have inner : cs.dropWhile isBlank = trimChars cs ++ behind.reverse := by
    rw [trimChars, ← List.reverse_append, ← split', List.reverse_reverse]
  refine ⟨⟨front, behind.reverse, ?_, blank, fun c member => blank' c (List.mem_reverse.mp member)⟩,
    ?_, ?_⟩
  · rw [List.append_assoc, ← inner, ← split]
  · intro c first
    refine head c ?_
    rw [inner, List.head?_append, Option.mem_def.mp first]
    rfl
  · rwa [trimChars, List.getLast?_reverse]

/-- Trimming a text leaves what it pads. -/
theorem Pads.trimChars_eq (h : Pads cs core) : trimChars cs = core := by
  obtain ⟨⟨front, behind, rfl, blank, blank'⟩, head, last⟩ := h
  cases core with
  | nil =>
    have all : ∀ c ∈ front ++ behind, isBlank c := by
      simpa [or_imp, forall_and] using ⟨blank, blank'⟩
    have none : (front ++ behind).dropWhile isBlank = [] := by
      rw [List.dropWhile_eq_nil_iff]
      exact all
    rw [trimChars, List.append_nil, none]
    rfl
  | cons c core =>
    have first : ∀ d ∈ (c :: core ++ behind).head?, isBlank d = false := head
    have last : ∀ d ∈ (c :: core).reverse.head?, isBlank d = false := by
      rwa [List.head?_reverse]
    have back : ∀ d ∈ behind.reverse, isBlank d := fun d member =>
      blank' d (List.mem_reverse.mp member)
    rw [trimChars, List.append_assoc, dropWhile_isBlank_append blank first, List.reverse_append,
      dropWhile_isBlank_append back last, List.reverse_reverse]

theorem pads_iff : Pads cs core ↔ trimChars cs = core :=
  ⟨Pads.trimChars_eq, fun same => same ▸ pads_trimChars cs⟩

theorem pads_nil_iff : Pads cs [] ↔ cs.all isBlank := by
  constructor
  · rintro ⟨⟨front, behind, rfl, blank, blank'⟩, -, -⟩
    simpa using ⟨blank, blank'⟩
  · intro blank
    exact ⟨⟨cs, [], by simp, by simpa using blank, by simp⟩, by simp, by simp⟩

/-- What stands in a padded text is white space or stands in the core. -/
theorem Pads.mem (h : Pads cs core) (member : c ∈ cs) : isBlank c ∨ c ∈ core := by
  obtain ⟨⟨front, behind, rfl, blank, blank'⟩, -, -⟩ := h
  simp only [List.mem_append, or_assoc] at member
  exact member.elim (fun m => .inl (blank c m)) (Or.elim · .inr fun m => .inl (blank' c m))

end Trim

section Split

variable {separator : Char} {items : List (List Char)}

theorem notMem_of_mem_splitOn {item : List Char} (h : item ∈ cs.splitOn separator) :
    separator ∉ item := by
  induction cs generalizing item with
  | nil =>
    obtain rfl := List.mem_singleton.mp h
    exact List.not_mem_nil
  | cons c cs ih =>
    rw [List.splitOn_cons_eq_if_modifyHead] at h
    split at h
    · obtain rfl | member := List.mem_cons.mp h
      · exact List.not_mem_nil
      · exact ih member
    · next other =>
      obtain ⟨first, items, behind⟩ :=
        List.exists_cons_of_ne_nil (List.splitOn_ne_nil separator cs)
      rw [behind] at h ih
      obtain rfl | member := List.mem_cons.mp h
      · have apart : separator ≠ c := fun same => other (beq_iff_eq.mpr same.symm)
        exact List.not_mem_cons_of_ne_of_not_mem apart (ih List.mem_cons_self)
      · exact ih (List.mem_cons_of_mem _ member)

/-- The text has these items between separators. A text without characters has one item, and is also
taken to have none. -/
structure Joins (separator : Char) (cs : List Char) (items : List (List Char)) : Prop where
  joined : cs = [separator].intercalate items
  separate : ∀ item ∈ items, separator ∉ item

theorem joins_splitOn (separator : Char) (cs : List Char) :
    Joins separator cs (cs.splitOn separator) where
  joined := (List.intercalate_splitOn _).symm
  separate _ member := notMem_of_mem_splitOn member

theorem Joins.splitOn_eq (h : Joins separator cs items) (some : items ≠ []) :
    cs.splitOn separator = items := by
  rw [h.joined, List.splitOn_intercalate separator h.separate some]

end Split

end ElTemplate.Text
