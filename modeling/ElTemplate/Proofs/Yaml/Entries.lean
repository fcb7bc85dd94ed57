import ElTemplate.Proofs.Yaml.Word

/-!
# Mappings of words at the margin

A mapping whose keys are words at the margin is read entry by entry. An entry is described by its
essential lines and what they mean; how each of the three shapes of entries is read is one lemma,
and the order of the entries is that of the lines, whatever stands between these.
-/

namespace ElTemplate.Yaml

/-- A line at the margin that begins with a key. -/
structure IsKeyLine (l : Line) : Prop where
  indent : l.indent = 0
  head : ∃ c rest, l.text = c :: rest ∧ isWordChar c
  key : (key? l.text).isSome

/-- The line of an item in a list of words. -/
def dashLine (word : List Char) : Line :=
  ⟨0, '-' :: ' ' :: word⟩

/-- The essential lines of an entry: where they come first, the entries of the mapping go on behind
them with the entry read. -/
structure IsEntry (es : List Line) (entry : Value × Value) : Prop where
  begins : ∃ l rest, es = l :: rest ∧ IsKeyLine l
  lines : ∀ l ∈ es, IsKeyLine l ∨ ∃ word, l = dashLine word
  reads : ∀ {steps : Nat} {done : List (Value × Value)} {ls more : List Line},
    essential ls = es ++ more → (∀ l ∈ more.head?, IsKeyLine l) → (es ++ more).length ≤ steps →
    ∃ ls', essential ls' = more ∧
      blockEntries (steps + 1) 0 done ls = blockEntries steps 0 (entry :: done) ls'

variable {key word cs after content : List Char} {l : Line} {ls rest es more : List Line}
  {steps : Nat} {done : List (Value × Value)} {value : Value}
  {words : List (List Char)}

section Lines

theorem IsKeyLine.isMargin (h : IsKeyLine l) : IsMargin l := by
  obtain ⟨c, rest, text, word⟩ := h.head
  exact ⟨h.indent, c, rest, text, .inl word⟩

theorem isItem_of_head {c : Char} (text : l.text = c :: cs) (word : isWordChar c) :
    l.isItem = false := by
  have dash : c ≠ '-' := ne_of_isWordChar word (by decide)
  rw [Line.isItem, text]
  split
  · next same => exact absurd (List.cons.inj same).1 dash
  · rfl

theorem IsKeyLine.isItem (h : IsKeyLine l) : l.isItem = false := by
  obtain ⟨c, rest, text, word⟩ := h.head
  exact isItem_of_head text word

theorem IsKeyLine.unmarked (h : IsKeyLine l) : l.isMark '-' = false ∧ l.isMark '.' = false := by
  obtain ⟨c, rest, text, word⟩ := h.head
  have dash : c ≠ '-' := ne_of_isWordChar word (by decide)
  have dot : c ≠ '.' := by
    rintro rfl
    exact absurd word (by decide)
  simp [Line.isMark, text, dash, dot]

theorem isKeyLine_word (word : IsWord key) (short : key.length ≤ maxKeyLength)
    (space : atSpace after) : IsKeyLine ⟨0, key ++ ':' :: after⟩ where
  indent := rfl
  head := by
    obtain ⟨c, rest, rfl, first⟩ := word.exists_cons
    exact ⟨c, _, rfl, first⟩
  key := by rw [key?_word word short space]; rfl

theorem isMargin_dashLine (word : List Char) : IsMargin (dashLine word) :=
  ⟨rfl, '-', ' ' :: word, rfl, .inr rfl⟩

theorem unmarked_dashLine (word : List Char) :
    (dashLine word).isMark '-' = false ∧ (dashLine word).isMark '.' = false := by
  simp [Line.isMark, dashLine]

theorem IsEntry.unmarked {entry : Value × Value} (h : IsEntry es entry) (member : l ∈ es) :
    l.isMark '-' = false ∧ l.isMark '.' = false := by
  obtain keyed | ⟨word, rfl⟩ := h.lines l member
  · exact keyed.unmarked
  · exact unmarked_dashLine word

theorem IsEntry.isIgnorable {entry : Value × Value} (h : IsEntry es entry) (member : l ∈ es) :
    l.isIgnorable = false := by
  obtain keyed | ⟨word, rfl⟩ := h.lines l member
  · exact keyed.isMargin.isIgnorable
  · exact (isMargin_dashLine word).isIgnorable

end Lines

section Items

/-- What stands behind a dash is a line that is indented further. -/
theorem ofChars_item (word : IsWord cs) :
    Line.ofChars (' ' :: cs) = ⟨1, cs⟩ ∧ Line.isIgnorable ⟨1, cs⟩ = false := by
  have head := word.head?_append []
  rw [List.append_nil] at head
  refine ⟨ofChars_spaces 1 head, ?_⟩
  obtain ⟨c, rest, rfl, first⟩ := word.exists_cons
  have comment : c ≠ '#' := ne_of_isWordChar first (by decide)
  simpa [Line.isIgnorable] using comment

theorem blockNode_word (word : IsWord cs) (steps indent : Nat)
    (read : inlineNode 1 ⟨cs, rest⟩ = some (value, ls)) :
    blockNode (steps + 1) 1 ⟨indent, cs⟩ rest = some (value, ls) := by
  obtain ⟨c, cs, rfl, first⟩ := word.exists_cons
  have item : Line.isItem ⟨indent, c :: cs⟩ = false := isItem_of_head rfl first
  simp [blockNode, item, key?_of_word word, read]

/-- Items that are words are read up to the next key. -/
theorem blockItems_words (all : ∀ word ∈ words, IsWord word) (items : List Value)
    (below : essential ls = words.map dashLine ++ more) (margin : ∀ l ∈ more.head?, IsKeyLine l)
    (enough : words.length < steps) :
    ∃ ls', essential ls' = more ∧
      blockItems steps 0 items ls = some (.sequence (items.reverse ++ words.map .plain), ls') := by
  induction words generalizing ls steps items with
  | nil =>
    obtain ⟨steps, rfl⟩ := Nat.exists_eq_add_of_le' enough
    cases more with
    | nil => exact ⟨[], rfl, by simp [blockItems, skipIgnorable_of_nil below]⟩
    | cons l more =>
      obtain ⟨rest, skipped, behind⟩ := skipIgnorable_of_cons below
      have next := margin l rfl
      refine ⟨l :: rest, ?_, ?_⟩
      · rw [essential_cons_of_not next.isMargin.isIgnorable, behind]
      · simp [blockItems, skipped, next.indent, next.isItem]
  | cons word words ih =>
    obtain ⟨first, all⟩ := List.forall_mem_cons.mp all
    obtain ⟨steps, rfl⟩ := Nat.exists_eq_add_of_le' (Nat.zero_lt_of_lt enough)
    have enough : words.length < steps := Nat.lt_of_succ_lt_succ enough
    obtain ⟨rest, skipped, behind⟩ := skipIgnorable_of_cons below
    have next : ∀ l ∈ (words.map dashLine ++ more).head?, IsMargin l := by
      cases words with
      | nil => exact fun l head => (margin l head).isMargin
      | cons word words =>
        rintro l ⟨⟩
        exact isMargin_dashLine word
    obtain ⟨ls', read, behind⟩ := inlineNode_word first next behind
    obtain ⟨ls'', last, further⟩ := ih all (.plain word :: items) behind enough
    refine ⟨ls'', last, ?_⟩
    obtain ⟨steps, rfl⟩ := Nat.exists_eq_add_of_le' (Nat.zero_lt_of_lt enough)
    obtain ⟨content, real⟩ := ofChars_item first
    have node := blockNode_word first steps 2 read
    have dash : Line.isItem ⟨0, '-' :: ' ' :: word⟩ := rfl
    rw [blockItems, skipped]
    simp [dashLine, dash, content, real, node, further]

end Items

section Entries

/-- The value of a key stands behind its colon. -/
theorem blockEntries_inline {entryKey : Value} {text : List Char}
    (skipped : skipIgnorable ls = ⟨0, text⟩ :: rest) (key : key? text = some (entryKey, after))
    (text : after.dropWhile isSpace = content) (solid : content.head?.all (· == '#') = false)
    (read : inlineNode 1 ⟨content, rest⟩ = some (value, more)) :
    blockEntries (steps + 1) 0 done ls = blockEntries steps 0 ((entryKey, value) :: done) more := by
  rw [blockEntries, skipped]
  simp [key, text, solid, read]

/-- The value of a key is a list whose dashes stand below it. -/
theorem blockEntries_items {entryKey : Value} {text : List Char} {next : Line}
    (skipped : skipIgnorable ls = ⟨0, text⟩ :: rest) (key : key? text = some (entryKey, []))
    (below : skipIgnorable rest = next :: more) (indent : next.indent = 0) (item : next.isItem)
    {ls' : List Line} (read : blockItems steps 0 [] rest = some (value, ls')) :
    blockEntries (steps + 1) 0 done ls = blockEntries steps 0 ((entryKey, value) :: done) ls' := by
  rw [blockEntries, skipped]
  simp [key, below, indent, item, read]

variable (named : IsWord key) (short : key.length ≤ maxKeyLength)

include named short

/-- An entry whose value is a word on its line. -/
theorem isEntry_word (word : IsWord cs) :
    IsEntry [⟨0, key ++ ':' :: ' ' :: cs⟩] (.plain key, .plain cs) where
  begins := ⟨_, [], rfl, isKeyLine_word named short rfl⟩
  lines l member := .inl (List.mem_singleton.mp member ▸ isKeyLine_word named short rfl)
  reads := by
    intro steps done ls more below margin _
    obtain ⟨rest, skipped, behind⟩ := skipIgnorable_of_cons below
    obtain ⟨ls', read, behind⟩ :=
      inlineNode_word word (fun l head => (margin l head).isMargin) behind
    obtain ⟨c, cs, rfl, first⟩ := word.exists_cons
    have space : isSpace c = false := (plain_of_isWordChar first).1
    have comment : c ≠ '#' := ne_of_isWordChar first (by decide)
    have solid : ¬ isSpace c := by simp [space]
    have text : (' ' :: c :: cs).dropWhile isSpace = c :: cs :=
      (List.dropWhile_cons_of_pos rfl).trans (List.dropWhile_cons_of_neg solid)
    exact ⟨ls', behind, blockEntries_inline skipped (key?_word named short rfl) text
      (by simpa using comment) read⟩

/-- An entry whose value is a list without items. -/
theorem isEntry_brackets :
    IsEntry [⟨0, key ++ ':' :: [' ', '[', ']']⟩] (.plain key, .sequence []) where
  begins := ⟨_, [], rfl, isKeyLine_word named short rfl⟩
  lines l member := .inl (List.mem_singleton.mp member ▸ isKeyLine_word named short rfl)
  reads := by
    intro steps done ls more below margin _
    obtain ⟨rest, skipped, behind⟩ := skipIgnorable_of_cons below
    exact ⟨rest, behind, blockEntries_inline skipped (key?_word named short rfl) rfl rfl
      (inlineNode_brackets rest)⟩

/-- An entry whose value is a list of words, with their dashes below its key. -/
theorem isEntry_words (filled : words ≠ []) (all : ∀ word ∈ words, IsWord word) :
    IsEntry (⟨0, key ++ [':']⟩ :: words.map dashLine)
      (.plain key, .sequence (words.map .plain)) where
  begins := ⟨_, _, rfl, isKeyLine_word named short rfl⟩
  lines := by
    refine List.forall_mem_cons.mpr ⟨.inl (isKeyLine_word named short rfl), ?_⟩
    exact List.forall_mem_map.mpr fun word _ => .inr ⟨word, rfl⟩
  reads := by
    intro steps done ls more below margin enough
    obtain ⟨rest, skipped, behind⟩ := skipIgnorable_of_cons below
    have room : words.length < steps := by
      simp only [List.cons_append, List.length_cons, List.length_append, List.length_map] at enough
      omega
    obtain ⟨ls', last, read⟩ := blockItems_words all [] behind margin room
    obtain ⟨word, words, rfl⟩ := List.exists_cons_of_ne_nil filled
    obtain ⟨rest', skipped', -⟩ := skipIgnorable_of_cons behind
    exact ⟨ls', last, blockEntries_items skipped (key?_word named short rfl) skipped' rfl rfl read⟩

end Entries

section Document

variable {blocks : List (List Line × (Value × Value))}

/-- Entries are read one after the other to the end. -/
theorem blockEntries_eq (entries : ∀ block ∈ blocks, IsEntry block.1 block.2)
    (done : List (Value × Value)) (below : essential ls = blocks.flatMap Prod.fst)
    (enough : (essential ls).length < steps) :
    blockEntries steps 0 done ls = some (.mapping (done.reverse ++ blocks.map Prod.snd), []) := by
  induction blocks generalizing ls steps done with
  | nil =>
    obtain ⟨steps, rfl⟩ := Nat.exists_eq_add_of_le' (Nat.zero_lt_of_lt enough)
    simp [blockEntries, skipIgnorable_of_nil below]
  | cons block blocks ih =>
    obtain ⟨first, entries⟩ := List.forall_mem_cons.mp entries
    obtain ⟨steps, rfl⟩ := Nat.exists_eq_add_of_le' (Nat.zero_lt_of_lt enough)
    have margin : ∀ l ∈ (blocks.flatMap Prod.fst).head?, IsKeyLine l := by
      cases blocks with
      | nil => simp
      | cons next blocks =>
        obtain ⟨l, rest, begins, keyed⟩ := (entries next List.mem_cons_self).begins
        rw [List.flatMap_cons, begins]
        rintro _ ⟨⟩
        exact keyed
    have split : essential ls = block.1 ++ blocks.flatMap Prod.fst := below
    rw [split] at enough
    obtain ⟨ls', behind, step⟩ := first.reads split margin (Nat.le_of_lt_succ enough)
    have shorter : (essential ls').length < steps := by
      obtain ⟨l, rest, begins, -⟩ := first.begins
      rw [begins, List.length_append, List.length_cons] at enough
      rw [behind]
      omega
    rw [step, ih entries _ behind shorter]
    simp

theorem length_lt_size (c : Cursor) : c.below.length < c.size := by
  have lines (ls : List Line) : ls.length ≤ (ls.map fun l => l.indent + l.text.length + 1).sum := by
    induction ls with
    | nil => exact Nat.le_refl _
    | cons l ls ih =>
      rw [List.map_cons, List.sum_cons, List.length_cons]
      omega
  exact Nat.lt_succ_of_le (Nat.le_add_left_of_le (lines c.below))

/-- The root of a document is a mapping if it begins with a key. -/
theorem documentBody_entries (entries : ∀ block ∈ blocks, IsEntry block.1 block.2)
    (keyed : IsKeyLine l) (below : essential (l :: rest) = blocks.flatMap Prod.fst) :
    documentBody ⟨[], l :: rest⟩ = some (.mapping (blocks.map Prod.snd)) := by
  have start : skipIgnorable (l :: rest) = l :: rest :=
    List.dropWhile_cons_of_neg (by simp [keyed.isMargin.isIgnorable])
  have enough : (essential (l :: rest)).length < 2 * Cursor.size ⟨[], l :: rest⟩ := by
    have bound := length_lt_size ⟨[], l :: rest⟩
    have fewer : (essential (l :: rest)).length ≤ (l :: rest).length := List.length_filter_le _ _
    dsimp only at bound
    omega
  have read := blockEntries_eq entries [] below enough
  simp [documentBody, blockBelow, start, blockNode, keyed.isItem, keyed.key, keyed.indent, read]

/-- A document without marks is read from its first line on that says something. -/
theorem document_unmarked (skipped : skipIgnorable ls = l :: rest)
    (unmarked : ∀ line ∈ ls, line.isMark '-' = false ∧ line.isMark '.' = false) :
    document ls = documentBody ⟨[], l :: rest⟩ := by
  have body : ∀ line ∈ l :: rest, line.isMark '-' = false ∧ line.isMark '.' = false := by
    rw [← skipped]
    exact fun line member => unmarked line ((List.dropWhile_suffix _).subset member)
  have none : (l :: rest).dropWhile (fun l => !(l.isMark '-' || l.isMark '.')) = [] := by
    rw [List.dropWhile_eq_nil_iff]
    exact fun line member => by simp [body line member]
  have all : (l :: rest).takeWhile (fun l => !(l.isMark '-' || l.isMark '.')) = l :: rest := by
    rw [List.takeWhile_eq_self_iff]
    exact fun line member => by simp [body line member]
  have first := body l List.mem_cons_self
  rw [document, skipped]
  simp only [first, Bool.false_eq_true, if_false, none, all, if_true, List.append_nil]
  rfl

/-- Neither the lines of entries nor those that say nothing are marks. -/
theorem unmarked_of_entries (entries : ∀ block ∈ blocks, IsEntry block.1 block.2)
    (below : essential ls = blocks.flatMap Prod.fst) (member : l ∈ ls) :
    l.isMark '-' = false ∧ l.isMark '.' = false := by
  cases ignorable : l.isIgnorable with
  | true =>
    exact ⟨isMark_of_ignorable ignorable (by decide), isMark_of_ignorable ignorable (by decide)⟩
  | false =>
    have kept : l ∈ essential ls := List.mem_filter.mpr ⟨member, by simp [ignorable]⟩
    rw [below, List.mem_flatMap] at kept
    obtain ⟨block, among, inside⟩ := kept
    exact (entries block among).unmarked inside

/-- A document of entries is a mapping. -/
theorem document_entries (entries : ∀ block ∈ blocks, IsEntry block.1 block.2)
    (filled : blocks ≠ []) (below : essential ls = blocks.flatMap Prod.fst) :
    document ls = some (.mapping (blocks.map Prod.snd)) := by
  obtain ⟨block, blocks, rfl⟩ := List.exists_cons_of_ne_nil filled
  obtain ⟨first, others, begins, keyed⟩ := (entries block List.mem_cons_self).begins
  have start : essential ls = first :: (others ++ blocks.flatMap Prod.fst) := by
    rw [below, List.flatMap_cons, begins]
    rfl
  obtain ⟨rest, skipped, -⟩ := skipIgnorable_of_cons start
  have kept : essential (first :: rest) = (block :: blocks).flatMap Prod.fst := by
    rw [← skipped, essential_skipIgnorable, below]
  rw [document_unmarked skipped fun l member => unmarked_of_entries entries below member]
  exact documentBody_entries entries keyed kept

/-- A text of entries is a mapping, with blank lines and comments anywhere. -/
theorem read_entries {blocks : List (List String × (Value × Value))} {lines : List String}
    (entries : ∀ block ∈ blocks, IsEntry (block.1.map Line.ofString) block.2)
    (filled : blocks ≠ []) (ascii : ∀ block ∈ blocks, ∀ line ∈ block.1, IsAscii line.toList)
    (fills : Fills (blocks.flatMap Prod.fst) lines) :
    read (String.join (lines.map (· ++ "\n"))).toList =
      some (.mapping (blocks.map Prod.snd)) := by
  have ascii : ∀ line ∈ blocks.flatMap Prod.fst, IsAscii line.toList := by
    intro line member
    obtain ⟨block, among, inside⟩ := List.mem_flatMap.mp member
    exact ascii block among line inside
  have real : ∀ line ∈ blocks.flatMap Prod.fst, (Line.ofString line).isIgnorable = false := by
    intro line member
    obtain ⟨block, among, inside⟩ := List.mem_flatMap.mp member
    exact (entries block among).isIgnorable (List.mem_map_of_mem inside)
  have clean := fills.clean ascii
  have printable := all_isPrintable_join fun line member c inside =>
    (clean line member c inside).1
  have text := lines_join fun line member c inside => (clean line member c inside).2
  have below : essential (lines.map Line.ofString ++ [⟨0, []⟩]) =
      (blocks.map fun block => (block.1.map Line.ofString, block.2)).flatMap Prod.fst := by
    rw [essential_append, fills.essential_eq real, List.map_flatMap, List.flatMap_map]
    exact List.append_nil _
  have read := document_entries (List.forall_mem_map.mpr entries) (by simpa using filled) below
  rw [List.map_map] at read
  rw [Yaml.read, if_pos printable, text]
  · exact read
  · intro rest mark
    exact fills.head?_ne ascii (by rw [mark]; rfl)

end Document

end ElTemplate.Yaml
