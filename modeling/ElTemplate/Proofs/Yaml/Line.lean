import ElTemplate.Proofs.Text.Classes
import ElTemplate.Yaml.Line
import Mathlib.Data.List.TakeWhile

/-!
# Lines that say nothing

Blank lines and comments may stand between the lines of a text. They are what block structure skips,
so a list of lines counts by those that are essential. A text of which every line ends with a line
feed is cut into just these lines and an empty one behind them.
-/

namespace ElTemplate.Yaml

/-- A line of spaces, or a comment of its own with spaces before it. A tab before the comment would
be an error where lines have to be indented. -/
inductive IsFiller : List Char → Prop
  | blank (spaces : Nat) : IsFiller (List.replicate spaces ' ')
  | comment (spaces : Nat) {text : List Char}
      (clean : ∀ c ∈ text, isPrintable c ∧ isBreak c = false) :
      IsFiller (List.replicate spaces ' ' ++ '#' :: text)

/-- The lines in their order, with blank lines and comments anywhere before, between and behind
them. -/
inductive Fills : List String → List String → Prop
  | nil : Fills [] []
  | filler {line : String} {lines more : List String} (filler : IsFiller line.toList)
      (rest : Fills lines more) : Fills lines (line :: more)
  | line {line : String} {lines more : List String} (rest : Fills lines more) :
      Fills (line :: lines) (line :: more)

/-- A line of printable ASCII characters. -/
def IsAscii (line : List Char) : Prop :=
  ∀ c ∈ line, 0x20 ≤ c.toNat ∧ c.toNat ≤ 0x7E

/-- The lines that are neither blank nor comments. -/
def essential (ls : List Line) : List Line :=
  ls.filter (!·.isIgnorable)

/-- A line of a text. -/
def Line.ofString (line : String) : Line :=
  Line.ofChars line.toList

variable {line rest : List Char} {lines more : List String} {c : Char}
variable {l : Line} {ls es : List Line}

section Characters

theorem isPrintable_of_ascii (h : 0x20 ≤ c.toNat ∧ c.toNat ≤ 0x7E) :
    isPrintable c ∧ isBreak c = false :=
  Text.ascii_of_forall
    (p := fun c => 0x20 ≤ c.toNat ∧ c.toNat ≤ 0x7E → isPrintable c ∧ isBreak c = false)
    (by decide) (by omega) h

theorem isAscii_of_all (all : line.all fun c => 0x20 ≤ c.toNat && c.toNat ≤ 0x7E) :
    IsAscii line := by
  simpa [IsAscii] using all

/-- A comment at the margin in printable ASCII characters. -/
theorem isFiller_of_ascii (ascii : IsAscii line) : IsFiller ('#' :: line) :=
  .comment 0 fun c member => isPrintable_of_ascii (ascii c member)

theorem IsFiller.clean (h : IsFiller line) : ∀ c ∈ line, isPrintable c ∧ isBreak c = false := by
  have spaces (n : Nat) : ∀ c ∈ List.replicate n ' ', isPrintable c ∧ isBreak c = false := by
    intro c member
    rw [List.eq_of_mem_replicate member]
    decide
  cases h with
  | blank n => exact spaces n
  | comment n clean =>
    refine List.forall_mem_append.mpr ⟨spaces n, List.forall_mem_cons.mpr ⟨by decide, clean⟩⟩

theorem IsFiller.head?_ne (h : IsFiller line) : line.head? ≠ some '\uFEFF' := by
  cases h with
  | blank n => cases n <;> simp [List.replicate_succ]
  | comment n clean => cases n <;> simp [List.replicate_succ]

end Characters

section Split

theorem splitBreaks_line (clean : ∀ c ∈ line, isBreak c = false) (rest : List Char) :
    splitBreaks (line ++ '\n' :: rest) = line :: splitBreaks rest := by
  induction line with
  | nil =>
    rw [List.nil_append, splitBreaks]
    · rfl
    · rintro _ ⟨⟩
  | cons c line ih =>
    obtain ⟨inner, clean⟩ := List.forall_mem_cons.mp clean
    have other : c ≠ '\r' := by
      rintro rfl
      exact absurd inner (by decide)
    rw [List.cons_append, splitBreaks, inner, ih clean]
    · rfl
    · rintro _ rfl
      exact absurd rfl other

theorem toList_join_cons (line : String) (more : List String) :
    (String.join ((line :: more).map (· ++ "\n"))).toList =
      line.toList ++ '\n' :: (String.join (more.map (· ++ "\n"))).toList := by
  rw [List.map_cons, String.join_cons, String.toList_append, String.toList_append,
    List.append_assoc]
  rfl

theorem splitBreaks_join (clean : ∀ line ∈ more, ∀ c ∈ line.toList, isBreak c = false) :
    splitBreaks (String.join (more.map (· ++ "\n"))).toList = more.map String.toList ++ [[]] := by
  induction more with
  | nil => rfl
  | cons line more ih =>
    obtain ⟨first, clean⟩ := List.forall_mem_cons.mp clean
    rw [toList_join_cons, splitBreaks_line first, ih clean]
    rfl

/-- The lines of a text are those that are joined in it, and an empty one. -/
theorem lines_join (clean : ∀ line ∈ more, ∀ c ∈ line.toList, isBreak c = false) :
    Yaml.lines (String.join (more.map (· ++ "\n"))).toList =
      more.map Line.ofString ++ [⟨0, []⟩] := by
  rw [Yaml.lines, splitBreaks_join clean, List.map_append, List.map_map]
  rfl

theorem all_isPrintable_join (clean : ∀ line ∈ more, ∀ c ∈ line.toList, isPrintable c) :
    (String.join (more.map (· ++ "\n"))).toList.all isPrintable := by
  induction more with
  | nil => rfl
  | cons line more ih =>
    obtain ⟨first, clean⟩ := List.forall_mem_cons.mp clean
    rw [toList_join_cons, List.all_append, List.all_cons, ih clean, List.all_eq_true.mpr first]
    rfl

end Split

section Essential

theorem ofChars_spaces (spaces : Nat) (head : line.head? ≠ some ' ') :
    Line.ofChars (List.replicate spaces ' ' ++ line) = ⟨spaces, line⟩ := by
  have all : ∀ c ∈ List.replicate spaces ' ', (c == ' ') = true := by
    intro c member
    rw [List.eq_of_mem_replicate member]
    rfl
  rw [Line.ofChars, List.takeWhile_append_of_pos all, List.dropWhile_append_of_pos all]
  cases line with
  | nil => simp
  | cons c line =>
    have other : c ≠ ' ' := by simpa using head
    simp [other]

/-- A line that begins with another character than a space is not indented. -/
theorem ofChars_of_head (head : line.head? ≠ some ' ') : Line.ofChars line = ⟨0, line⟩ :=
  ofChars_spaces 0 head

theorem IsFiller.isIgnorable (h : IsFiller line) : (Line.ofChars line).isIgnorable := by
  cases h with
  | blank n =>
    have plain : Line.ofChars (List.replicate n ' ' ++ []) = ⟨n, []⟩ := ofChars_spaces n nofun
    rw [List.append_nil] at plain
    rw [plain]
    rfl
  | comment n clean =>
    rw [ofChars_spaces n (by simp)]
    rfl

@[simp] theorem essential_nil : essential [] = [] := rfl

theorem essential_cons_of_ignorable (h : l.isIgnorable) (ls : List Line) :
    essential (l :: ls) = essential ls :=
  List.filter_cons_of_neg (by simp [h])

theorem essential_cons_of_not (h : l.isIgnorable = false) (ls : List Line) :
    essential (l :: ls) = l :: essential ls :=
  List.filter_cons_of_pos (by simp [h])

theorem essential_append (ls ls' : List Line) :
    essential (ls ++ ls') = essential ls ++ essential ls' :=
  List.filter_append ls ls'

/-- What is skipped is what is not essential. -/
theorem essential_skipIgnorable (ls : List Line) : essential (skipIgnorable ls) = essential ls := by
  induction ls with
  | nil => rfl
  | cons l ls ih =>
    cases ignorable : l.isIgnorable with
    | true =>
      rw [essential_cons_of_ignorable ignorable, ← ih, skipIgnorable,
        List.dropWhile_cons_of_pos ignorable]
      rfl
    | false => rw [skipIgnorable, List.dropWhile_cons_of_neg (by simp [ignorable])]

theorem skipIgnorable_of_nil (none : essential ls = []) : skipIgnorable ls = [] := by
  rw [essential, List.filter_eq_nil_iff] at none
  rw [skipIgnorable, List.dropWhile_eq_nil_iff]
  simpa using none

theorem skipIgnorable_of_cons (some : essential ls = l :: es) :
    ∃ rest, skipIgnorable ls = l :: rest ∧ essential rest = es := by
  induction ls with
  | nil => cases some
  | cons l' ls ih =>
    cases ignorable : l'.isIgnorable with
    | true =>
      rw [essential_cons_of_ignorable ignorable] at some
      rw [skipIgnorable, List.dropWhile_cons_of_pos ignorable]
      exact ih some
    | false =>
      rw [essential_cons_of_not ignorable] at some
      obtain ⟨rfl, rest⟩ := List.cons.inj some
      exact ⟨ls, List.dropWhile_cons_of_neg (by simp [ignorable]), rest⟩

theorem isMark_of_ignorable (h : l.isIgnorable) {mark : Char} (other : mark ≠ '#') :
    l.isMark mark = false := by
  obtain ⟨indent, text⟩ := l
  cases text with
  | nil => simp [Line.isMark]
  | cons c text =>
    have comment : c = '#' := by simpa [Line.isIgnorable] using h
    simp [Line.isMark, comment, Ne.symm other]

end Essential

namespace Fills

theorem refl (lines : List String) : Fills lines lines := by
  induction lines with
  | nil => exact .nil
  | cons line lines ih => exact .line ih

/-- Only the lines themselves are essential. -/
theorem essential_eq (h : Fills lines more)
    (real : ∀ line ∈ lines, (Line.ofString line).isIgnorable = false) :
    essential (more.map Line.ofString) = lines.map Line.ofString := by
  induction h with
  | nil => rfl
  | filler filler rest ih =>
    have ignorable : (Line.ofString _).isIgnorable := filler.isIgnorable
    rw [List.map_cons, essential_cons_of_ignorable ignorable, ih real]
  | line rest ih =>
    obtain ⟨first, real⟩ := List.forall_mem_cons.mp real
    rw [List.map_cons, essential_cons_of_not first, ih real, List.map_cons]

theorem clean (h : Fills lines more) (ascii : ∀ line ∈ lines, IsAscii line.toList) :
    ∀ line ∈ more, ∀ c ∈ line.toList, isPrintable c ∧ isBreak c = false := by
  induction h with
  | nil => exact nofun
  | filler filler rest ih => exact List.forall_mem_cons.mpr ⟨filler.clean, ih ascii⟩
  | line rest ih =>
    obtain ⟨first, ascii⟩ := List.forall_mem_cons.mp ascii
    exact List.forall_mem_cons.mpr
      ⟨fun c member => isPrintable_of_ascii (first c member), ih ascii⟩

/-- No byte order mark begins the text. -/
theorem head?_ne (h : Fills lines more) (ascii : ∀ line ∈ lines, IsAscii line.toList) :
    (String.join (more.map (· ++ "\n"))).toList.head? ≠ some '\uFEFF' := by
  have joined {line : String} {more : List String} (other : line.toList.head? ≠ some '\uFEFF') :
      (String.join ((line :: more).map (· ++ "\n"))).toList.head? ≠ some '\uFEFF' := by
    rw [toList_join_cons]
    cases spelled : line.toList with
    | nil => simp
    | cons c rest => simpa [spelled] using other
  cases h with
  | nil => simp
  | filler filler rest => exact joined filler.head?_ne
  | line rest =>
    refine joined fun mark => ?_
    have bound := (ascii _ List.mem_cons_self _ (List.mem_of_mem_head? mark)).2
    exact absurd bound (by decide)

end Fills

end ElTemplate.Yaml
