import Mathlib.Data.List.Nodup
import ElTemplate.Proofs.Number.Digits
import ElTemplate.Proofs.Yaml.Plain
import ElTemplate.Settings.Yaml

/-!
# What formats of configurations have to do

Settings are a plain mapping with an entry for each of three keys. A format is lawful if it reads
plain documents in the standard way, finds the fields of settings by their keys, and writes settings
as such a document. The format of this library is lawful: an entry is read by its own lines and
found by its key, so that the order of the entries does not matter.
-/

namespace ElTemplate.Settings

open Yaml (Content IsWord PlainEntry ReadsPlain Value)

/-- What settings are written under. -/
inductive Key where
  | cacheCapacity
  | concurrency
  | features
deriving DecidableEq, Repr

namespace Key

def name : Key → String
  | cacheCapacity => "cache_capacity"
  | concurrency => "concurrency"
  | features => "features"

/-- The keys in the order in which they are written. -/
def all : List Key :=
  [cacheCapacity, concurrency, features]

theorem mem_all (key : Key) : key ∈ all := by
  cases key <;> decide

theorem name_injective : Function.Injective name := by
  intro key key' same
  cases key <;> cases key' <;> first | rfl | exact absurd same (by decide)

theorem isWord_name (key : Key) : IsWord key.name.toList := by
  cases key <;> exact Yaml.isWord_of_all (by decide) (by decide)

theorem length_name_le (key : Key) : key.name.length ≤ Yaml.maxKeyLength := by
  cases key <;> decide

end Key

/-- What stands under a key. -/
def contentOf (s : Settings) : Key → Content
  | .cacheCapacity => .word (toString s.cacheCapacity)
  | .concurrency => .word (toString s.concurrency)
  | .features => .list (s.features.map Feature.name)

/-- The entry for a key. -/
def entryOf (s : Settings) (key : Key) : PlainEntry :=
  ⟨key.name, s.contentOf key⟩

/-- The entries give the settings: each is the entry for a key, no key has two, and a key without an
entry has its content in the default settings. -/
structure Tabulates (entries : List PlainEntry) (s : Settings) : Prop where
  capacity : s.cacheCapacity ≤ maxNumber
  concurrency : s.concurrency ≤ maxNumber
  distinct : (entries.map PlainEntry.key).Nodup
  known : ∀ e ∈ entries, ∃ key, e = s.entryOf key
  missing : ∀ key, s.entryOf key ∉ entries → s.contentOf key = default.contentOf key

/-- What is relied on of a format. -/
structure Format.Lawful (format : Format) : Prop where
  /-- Plain documents are read as their entries. -/
  document : ReadsPlain format.document
  /-- Settings are decoded from entries by their keys, with defaults for keys that are missing. -/
  decode : ∀ (entries : List PlainEntry) (s : Settings), Tabulates entries s →
    format.decode (.mapping (entries.map PlainEntry.value)) = some s
  /-- Settings are written as their entries in order, each line with a line break. -/
  write : ∀ s : Settings, s.cacheCapacity ≤ maxNumber → s.concurrency ≤ maxNumber →
    format.write s = some
      (String.join (((Key.all.map s.entryOf).flatMap PlainEntry.lines).map (· ++ "\n")))

variable {s : Settings} {n : Nat} {order : List Key} {key : Key} {entries : List PlainEntry}

section Entries

theorem toList_toString (n : Nat) : (toString n).toList = Digits.ofNat n :=
  String.toList_ofList

theorem isWord_toString (n : Nat) : IsWord (toString n).toList := by
  rw [toList_toString]
  exact ⟨Digits.ofNat_ne_nil n, fun _ member =>
    Yaml.isWordChar_of_isDigit (Digits.isDigit_of_mem_ofNat member)⟩

theorem isWord_feature (feature : Feature) : IsWord feature.name.toList := by
  cases feature <;> exact Yaml.isWord_of_all (by decide) (by decide)

theorem isPlain_entryOf (s : Settings) (key : Key) : (s.entryOf key).IsPlain where
  key := key.isWord_name
  short := key.length_name_le
  words := by
    cases key with
    | cacheCapacity => exact List.forall_mem_singleton.mpr (isWord_toString _)
    | concurrency => exact List.forall_mem_singleton.mpr (isWord_toString _)
    | features => exact List.forall_mem_map.mpr fun feature _ => isWord_feature feature

theorem nodup_keys (perm : order.Perm Key.all) :
    ((order.map s.entryOf).map PlainEntry.key).Nodup := by
  rw [List.map_map]
  exact (perm.nodup_iff.mpr (by decide)).map Key.name_injective

/-- The entries for all keys give the settings, in any order. -/
theorem tabulates_of_perm (perm : order.Perm Key.all) (bound : s.cacheCapacity ≤ maxNumber)
    (bound' : s.concurrency ≤ maxNumber) : Tabulates (order.map s.entryOf) s where
  capacity := bound
  concurrency := bound'
  distinct := nodup_keys perm
  known := List.forall_mem_map.mpr fun key _ => ⟨key, rfl⟩
  missing key absent :=
    absurd (List.mem_map_of_mem (perm.mem_iff.mpr key.mem_all)) absent

end Entries

section Decode

/-- The digits of a number are a plain number: they have no sign in front and no zero to spare. -/
theorem plainNumber?_ofNat (bound : n ≤ maxNumber) : plainNumber? (Digits.ofNat n) = some n := by
  have digits := Digits.toNat?_ofNat n
  by_cases zero : n = 0
  · subst zero
    decide
  · obtain ⟨c, cs, spelled⟩ := List.exists_cons_of_ne_nil (Digits.ofNat_ne_nil n)
    have member : c ∈ Digits.ofNat n := spelled ▸ List.mem_cons_self
    have sign : c ≠ '+' := by
      rintro rfl
      exact absurd (Digits.isDigit_of_mem_ofNat member) (by decide)
    have first : c ≠ '0' := by
      rintro rfl
      exact zero (Digits.eq_zero_of_head (by rw [spelled]; rfl))
    rw [spelled] at digits ⊢
    simp [plainNumber?, sign, first, digits, bound]

theorem numberOfValue?_word (bound : n ≤ maxNumber) :
    numberOfValue? (Content.word (toString n)).value = some n := by
  rw [Content.value, numberOfValue?, toList_toString]
  exact plainNumber?_ofNat bound

theorem featuresOfValue?_list (features : List Feature) :
    featuresOfValue? (Content.list (features.map Feature.name)).value = some features := by
  rw [Content.value, featuresOfValue?, List.map_map]
  induction features with
  | nil => rfl
  | cons feature features ih =>
    have first : featureOfValue? (.plain feature.name.toList) = some feature := by
      simp [featureOfValue?, Value.text?, Feature.ofName?_name]
    simp [List.mapM_cons, first, ih]

theorem eq_of_word {m : Nat} (same : Content.word (toString m) = .word (toString n)) : m = n := by
  refine Digits.ofNat_injective ?_
  rw [← toList_toString, ← toList_toString, Content.word.inj same]

/-- Where no key stands twice, an entry is the only one under its key. -/
theorem filter_key {e : PlainEntry} (distinct : (entries.map PlainEntry.key).Nodup)
    (member : e ∈ entries) : entries.filter (·.key = e.key) = [e] := by
  induction entries with
  | nil => cases member
  | cons first rest ih =>
    obtain ⟨apart, distinct⟩ := List.nodup_cons.mp distinct
    rcases List.mem_cons.mp member with rfl | member
    · have none : rest.filter (·.key = e.key) = [] := by
        simp only [List.filter_eq_nil_iff, decide_eq_true_eq]
        exact fun other member same => apart (List.mem_map.mpr ⟨other, member, same⟩)
      rw [List.filter_cons, if_pos (decide_eq_true rfl), none]
    · have other : first.key ≠ e.key := fun same =>
        apart (List.mem_map.mpr ⟨e, member, same.symm⟩)
      rw [List.filter_cons, if_neg (mt of_decide_eq_true other), ih distinct member]

/-- The entries under a name are the one for the key of that name, if there is one. -/
theorem Tabulates.filter_eq (h : Tabulates entries s) (key : Key) :
    entries.filter (·.key = key.name) =
      if s.entryOf key ∈ entries then [s.entryOf key] else [] := by
  split
  · next member => exact filter_key h.distinct member
  · next absent =>
    simp only [List.filter_eq_nil_iff, decide_eq_true_eq]
    intro e member named
    obtain ⟨key', rfl⟩ := h.known e member
    exact absent (Key.name_injective named ▸ member)

/-- A field is read from its entry, or has the default where it has none. -/
theorem Tabulates.field?_eq {α : Type} {read? : Value → Option α} {otherwise a : α}
    (h : Tabulates entries s) (key : Key) (read : read? (s.contentOf key).value = some a)
    (absent : s.contentOf key = default.contentOf key → otherwise = a) :
    field? (entries.map PlainEntry.value) key.name read? otherwise = some a := by
  have under : (fun entry : Value × Value => entry.1.text? == some key.name.toList) ∘
      PlainEntry.value = fun e => decide (e.key = key.name) := by
    funext e
    rw [Bool.eq_iff_iff]
    simp [PlainEntry.value, Value.text?, String.toList_inj]
  rw [field?, List.filter_map, under, h.filter_eq]
  by_cases member : s.entryOf key ∈ entries
  · rw [if_pos member]
    exact read
  · rw [if_neg member]
    exact congrArg some (absent (h.missing key member))

/-- The settings are found in entries that give them. -/
theorem Tabulates.ofValue?_eq (h : Tabulates entries s) :
    ofValue? (.mapping (entries.map PlainEntry.value)) = some s := by
  have texts : (entries.map PlainEntry.value).all fun entry => entry.1.text?.isSome := by
    simp [PlainEntry.value, Value.text?]
  have capacity := h.field?_eq .cacheCapacity (numberOfValue?_word h.capacity)
    fun same => (eq_of_word same).symm
  have concurrency := h.field?_eq .concurrency (numberOfValue?_word h.concurrency)
    fun same => (eq_of_word same).symm
  have none (same : s.contentOf .features = default.contentOf .features) :
      default.features = s.features := (List.map_eq_nil_iff.mp (Content.list.inj same)).symm
  have features := h.field?_eq .features (featuresOfValue?_list s.features) none
  simp only [Key.name] at capacity concurrency features
  simp [ofValue?, texts, capacity, concurrency, features]

end Decode

theorem lines_entryOf_features (s : Settings) :
    (s.entryOf .features).lines = featureLines s.features := by
  rw [PlainEntry.lines, entryOf, contentOf]
  cases s.features with
  | nil => rfl
  | cons feature features =>
    rw [featureLines, if_neg (List.cons_ne_nil _ _), List.map_cons, Content.lines, ← List.map_cons,
      List.map_map]
    rfl

/-- The format of this library reads plain documents, finds the fields and writes a plain
document. -/
theorem Format.yaml_lawful : Format.yaml.Lawful where
  document := Yaml.readsPlain_read
  decode _ _ tabulates := tabulates.ofValue?_eq
  write s _ _ := by
    have lines : (Key.all.map s.entryOf).flatMap PlainEntry.lines = s.yamlLines := by
      rw [yamlLines, ← lines_entryOf_features]
      simp only [Key.all, List.map_cons, List.map_nil, List.flatMap_cons, List.flatMap_nil,
        List.append_nil]
      rfl
    rw [lines]
    rfl

end ElTemplate.Settings
