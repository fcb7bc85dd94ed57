import ElTemplate.Proofs.Yaml.Entries

/-!
# Plain documents

The part of YAML that every reader has to read alike: a mapping at the margin, of words to words or
to lists of words. A list stands below its key with a dash before each word; one without words is a
pair of brackets behind the key. Blank lines and comments may stand between the lines.
-/

namespace ElTemplate.Yaml

/-- What stands under a key. -/
inductive Content where
  | word (text : String)
  | list (items : List String)
deriving DecidableEq, Repr

namespace Content

def words : Content → List String
  | word text => [text]
  | list items => items

/-- The lines under a key, that of the key among them. -/
def lines (key : String) : Content → List String
  | word text => [key ++ ": " ++ text]
  | list [] => [key ++ ": []"]
  | list (item :: items) => (key ++ ":") :: (item :: items).map ("- " ++ ·)

def value : Content → Value
  | word text => .plain text.toList
  | list items => .sequence (items.map fun item => .plain item.toList)

end Content

/-- A key with its content. -/
structure PlainEntry where
  key : String
  content : Content
deriving DecidableEq, Repr

namespace PlainEntry

def lines (e : PlainEntry) : List String :=
  e.content.lines e.key

def value (e : PlainEntry) : Value × Value :=
  (.plain e.key.toList, e.content.value)

/-- The key and all that stands under it are words, and the key is not too long for one. -/
structure IsPlain (e : PlainEntry) : Prop where
  key : IsWord e.key.toList
  short : e.key.length ≤ maxKeyLength
  words : ∀ word ∈ e.content.words, IsWord word.toList

end PlainEntry

/-- The reader gives every plain document, in which no key stands twice, the mapping of its entries
in their order. -/
def ReadsPlain (document : String → Option Value) : Prop :=
  ∀ (entries : List PlainEntry) (lines : List String), entries ≠ [] →
    (∀ e ∈ entries, e.IsPlain) → (entries.map PlainEntry.key).Nodup →
    Fills (entries.flatMap PlainEntry.lines) lines →
    document (String.join (lines.map (· ++ "\n"))) = some (.mapping (entries.map PlainEntry.value))

section Lines

variable {key : String} {behind : List Char}

/-- A line that begins with a word is not indented. -/
theorem ofString_word (word : IsWord key.toList) {line : String}
    (spelled : line.toList = key.toList ++ behind) :
    Line.ofString line = ⟨0, key.toList ++ behind⟩ := by
  rw [Line.ofString, spelled]
  exact ofChars_of_head (word.head?_append _)

theorem ofString_dash (item : String) : Line.ofString ("- " ++ item) = dashLine item.toList := by
  rw [Line.ofString, String.toList_append]
  exact ofChars_of_head nofun

theorem isAscii_append {cs ds : List Char} (h : IsAscii cs) (h' : IsAscii ds) :
    IsAscii (cs ++ ds) :=
  List.forall_mem_append.mpr ⟨h, h'⟩

end Lines

namespace PlainEntry.IsPlain

variable {e : PlainEntry}

/-- The lines of an entry are read as the entry. -/
theorem isEntry (h : e.IsPlain) : IsEntry (e.lines.map Line.ofString) e.value := by
  obtain ⟨key, content⟩ := e
  obtain ⟨named, short, words⟩ := h
  cases content with
  | word text =>
    have line : Line.ofString (key ++ ": " ++ text) =
        ⟨0, key.toList ++ ':' :: ' ' :: text.toList⟩ := ofString_word named (by simp)
    change IsEntry [Line.ofString (key ++ ": " ++ text)] _
    rw [line]
    exact isEntry_word named short (words text List.mem_cons_self)
  | list items =>
    cases items with
    | nil =>
      have line : Line.ofString (key ++ ": []") = ⟨0, key.toList ++ ':' :: [' ', '[', ']']⟩ :=
        ofString_word named (by simp)
      change IsEntry [Line.ofString (key ++ ": []")] _
      rw [line]
      exact isEntry_brackets named short
    | cons item items =>
      have line : Line.ofString (key ++ ":") = ⟨0, key.toList ++ [':']⟩ :=
        ofString_word named (by simp)
      have all : ∀ word ∈ (item :: items).map String.toList, IsWord word :=
        List.forall_mem_map.mpr words
      have dashes : ((item :: items).map ("- " ++ ·)).map Line.ofString =
          ((item :: items).map String.toList).map dashLine := by
        rw [List.map_map, List.map_map]
        exact List.map_congr_left fun item _ => ofString_dash item
      have values : (PlainEntry.value ⟨key, .list (item :: items)⟩) =
          (.plain key.toList, .sequence (((item :: items).map String.toList).map .plain)) := by
        rw [List.map_map]
        rfl
      change IsEntry (Line.ofString (key ++ ":") :: ((item :: items).map ("- " ++ ·)).map _) _
      rw [line, dashes, values]
      exact isEntry_words named short (List.cons_ne_nil _ _) all

theorem isAscii (h : e.IsPlain) : ∀ line ∈ e.lines, IsAscii line.toList := by
  obtain ⟨key, content⟩ := e
  obtain ⟨named, -, words⟩ := h
  have colon (behind : String) (ascii : IsAscii behind.toList) :
      IsAscii (key ++ behind).toList := by
    rw [String.toList_append]
    exact isAscii_append named.isAscii ascii
  cases content with
  | word text =>
    refine List.forall_mem_singleton.mpr ?_
    rw [String.append_assoc]
    refine colon _ ?_
    rw [String.toList_append]
    exact isAscii_append (isAscii_of_all (by decide)) (words text List.mem_cons_self).isAscii
  | list items =>
    cases items with
    | nil => exact List.forall_mem_singleton.mpr (colon _ (isAscii_of_all (by decide)))
    | cons item items =>
      refine List.forall_mem_cons.mpr ⟨colon _ (isAscii_of_all (by decide)), ?_⟩
      refine List.forall_mem_map.mpr fun word member => ?_
      rw [String.toList_append]
      exact isAscii_append (isAscii_of_all (by decide)) (words word member).isAscii

end PlainEntry.IsPlain

/-- This library reads plain documents. -/
theorem readsPlain_read : ReadsPlain fun text => read text.toList := by
  intro entries lines some plain _ fills
  have blocks : ∀ block ∈ entries.map fun e => (e.lines, e.value),
      IsEntry (block.1.map Line.ofString) block.2 :=
    List.forall_mem_map.mpr fun e member => (plain e member).isEntry
  have ascii : ∀ block ∈ entries.map fun e => (e.lines, e.value),
      ∀ line ∈ block.1, IsAscii line.toList :=
    List.forall_mem_map.mpr fun e member => (plain e member).isAscii
  have filled : (entries.map fun e => (e.lines, e.value)) ≠ [] := mt List.map_eq_nil_iff.mp some
  have read := read_entries blocks filled ascii (by rwa [List.flatMap_map])
  rwa [List.map_map] at read

end ElTemplate.Yaml
