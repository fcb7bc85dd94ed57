import ElTemplate.Proofs.Number.Digits
import ElTemplate.Proofs.Text.Classes
import ElTemplate.Proofs.Text.Items
import ElTemplate.Settings.Environment

/-!
# What an environment says

The settings that variables describe are stated without the steps that read them: a number is a
numeral between white space, a list of features joins padded names and blank items by commas.
Reading finds just these settings, or else the first thing that stands against them. That the
capacity is positive counts last, so a text that is no number or an unknown name is found before it.
-/

namespace ElTemplate.Settings

open Text (Joins Pads)

variable {lookup : String → Option String} {key value : String} {value? : Option String}
  {otherwise n : Nat} {cs item : List Char} {items : List (List Char)} {feature : Feature}
  {features : List Feature} {name : String} {e : ConfigError} {s : Settings}

section Outcome

variable {α β : Type} {read : Except ConfigError α} {next : α → Except ConfigError β} {b : β}

theorem bind_eq_ok_iff : read >>= next = .ok b ↔ ∃ a, read = .ok a ∧ next a = .ok b := by
  cases read <;> simp [bind, Except.bind]

theorem bind_eq_error_iff :
    read >>= next = .error e ↔ read = .error e ∨ ∃ a, read = .ok a ∧ next a = .error e := by
  cases read <;> simp [bind, Except.bind]

end Outcome

section Number

/-- An optional plus sign and digits, with a value that a setting can have. -/
def IsNumeral (cs : List Char) (n : Nat) : Prop :=
  ∃ digits, (cs = digits ∨ cs = '+' :: digits) ∧ digits ≠ [] ∧ (∀ c ∈ digits, c.isDigit) ∧
    Digits.toNat digits = n ∧ n ≤ maxNumber

/-- A variable that is set to a numeral between white space, or not set where that is the number
otherwise. -/
def HoldsNumber (value? : Option String) (otherwise n : Nat) : Prop :=
  match value? with
  | none => n = otherwise
  | some value => ∃ cs, Pads value.toList cs ∧ IsNumeral cs n

theorem isNumeral_ofNat (bound : n ≤ maxNumber) : IsNumeral (Digits.ofNat n) n :=
  ⟨_, .inl rfl, Digits.ofNat_ne_nil n, fun _ => Digits.isDigit_of_mem_ofNat, Digits.toNat_ofNat n,
    bound⟩

theorem readNumber?_of_head (unsigned : cs.head? ≠ some '+') :
    readNumber? cs = (Digits.toNat? cs).filter (· ≤ maxNumber) := by
  rw [readNumber?]
  rintro rest rfl
  exact unsigned rfl

theorem filter_toNat?_eq_some_iff : (Digits.toNat? cs).filter (· ≤ maxNumber) = some n ↔
    cs ≠ [] ∧ (∀ c ∈ cs, c.isDigit) ∧ Digits.toNat cs = n ∧ n ≤ maxNumber := by
  simp only [Option.filter_eq_some_iff, Digits.toNat?_eq_some_iff, decide_eq_true_eq, and_assoc]

theorem readNumber?_eq_some_iff : readNumber? cs = some n ↔ IsNumeral cs n := by
  constructor
  · intro read
    by_cases signed : cs.head? = some '+'
    · obtain ⟨digits, rfl⟩ := List.head?_eq_some_iff.mp signed
      exact ⟨digits, .inr rfl, filter_toNat?_eq_some_iff.mp read⟩
    · rw [readNumber?_of_head signed] at read
      exact ⟨cs, .inl rfl, filter_toNat?_eq_some_iff.mp read⟩
  · rintro ⟨digits, rfl | rfl, numeral⟩
    · have unsigned : cs.head? ≠ some '+' := fun plus =>
        absurd (numeral.2.1 '+' (List.mem_of_mem_head? plus)) (by decide)
      rw [readNumber?_of_head unsigned]
      exact filter_toNat?_eq_some_iff.mpr numeral
    · exact filter_toNat?_eq_some_iff.mpr numeral

theorem holdsNumber_some_iff :
    HoldsNumber (some value) otherwise n ↔
      readNumber? (Text.trimChars value.toList) = some n := by
  simp only [HoldsNumber, Text.pads_iff, exists_eq_left', readNumber?_eq_some_iff]

theorem numberVariable_eq_ok_iff :
    numberVariable lookup key otherwise = .ok n ↔ HoldsNumber (lookup key) otherwise n := by
  rw [numberVariable]
  cases lookup key with
  | none => simp [HoldsNumber, eq_comm]
  | some value =>
    rw [holdsNumber_some_iff]
    dsimp only
    cases readNumber? (Text.trimChars value.toList) <;> simp

theorem numberVariable_eq_error_iff :
    numberVariable lookup key otherwise = .error e ↔
      ∃ value, lookup key = some value ∧ (∀ n, ¬ HoldsNumber (some value) otherwise n) ∧
        e = .notANumber key value := by
  rw [numberVariable]
  cases lookup key with
  | none => simp
  | some value =>
    simp only [Option.some.injEq, exists_eq_left', holdsNumber_some_iff]
    cases readNumber? (Text.trimChars value.toList) <;> simp [eq_comm]

end Number

section Features

/-- The items are the names of the features in order, each between white space, and blank items
anywhere between them. -/
inductive Lists : List (List Char) → List Feature → Prop
  | nil : Lists [] []
  | blank {item : List Char} {items : List (List Char)} {features : List Feature}
      (padding : Pads item []) (rest : Lists items features) : Lists (item :: items) features
  | name {item : List Char} {items : List (List Char)} {feature : Feature}
      {features : List Feature} (named : Pads item feature.name.toList)
      (rest : Lists items features) : Lists (item :: items) (feature :: features)

/-- The first item that is not blank and names no feature has this text between white space. -/
def FirstUnknown (items : List (List Char)) (name : String) : Prop :=
  ∃ before item behind features, items = before ++ item :: behind ∧ Lists before features ∧
    Pads item name.toList ∧ name ≠ "" ∧ ∀ feature : Feature, name ≠ feature.name

/-- A variable that is set to a list of the features, or not set where there are none. -/
def HoldsFeatures (value? : Option String) (features : List Feature) : Prop :=
  match value? with
  | none => features = default.features
  | some value => ∃ items, Joins ',' value.toList items ∧ Lists items features

/-- The features that items name, where the blank ones count for nothing. -/
def readItems (items : List (List Char)) : Except ConfigError (List Feature) :=
  Feature.readAll ((items.filter fun item => !item.all Text.isBlank).map String.ofList)

theorem name_ne_empty (feature : Feature) : feature.name ≠ "" := by
  cases feature <;> decide

theorem readItems_nil : readItems [] = .ok [] :=
  rfl

theorem readItems_blank (padding : Pads item []) (items : List (List Char)) :
    readItems (item :: items) = readItems items := by
  have blank : item.all Text.isBlank := Text.pads_nil_iff.mp padding
  rw [readItems, List.filter_cons_of_neg (by simp [blank])]
  rfl

/-- An item that is not blank is read by its own text. -/
theorem readItems_cons (padded : Pads item name.toList) (filled : name ≠ "")
    (items : List (List Char)) :
    readItems (item :: items) =
      match Feature.ofName? name with
      | none => .error (.unknownFeature name)
      | some feature => (readItems items).map (feature :: ·) := by
  have solid : ¬ item.all Text.isBlank := fun blank =>
    filled (String.toList_eq_nil_iff.mp
      (padded.trimChars_eq.symm.trans (Text.pads_nil_iff.mpr blank).trimChars_eq))
  have trimmed : Text.trim (String.ofList item) = name := by
    rw [Text.trim, String.toList_ofList, padded.trimChars_eq, String.ofList_toList]
  rw [readItems, List.filter_cons_of_pos (by simpa using solid), List.map_cons, Feature.readAll,
    Feature.read, trimmed]
  cases Feature.ofName? name with
  | none => rfl
  | some feature =>
    simp only [readItems]
    cases Feature.readAll _ <;> rfl

theorem readItems_name (named : Pads item feature.name.toList) (items : List (List Char)) :
    readItems (item :: items) = (readItems items).map (feature :: ·) := by
  rw [readItems_cons named (name_ne_empty feature), Feature.ofName?_name]

theorem readItems_unknown (padded : Pads item name.toList) (filled : name ≠ "")
    (unknown : ∀ feature : Feature, name ≠ feature.name) (items : List (List Char)) :
    readItems (item :: items) = .error (.unknownFeature name) := by
  have none : Feature.ofName? name = none :=
    Option.eq_none_iff_forall_ne_some.mpr fun feature known =>
      unknown feature (Feature.ofName?_eq_some_iff.mp known)
  rw [readItems_cons padded filled, none]

/-- An item is blank, names a feature, or has another text. -/
theorem item_cases (item : List Char) : Pads item [] ∨
    (∃ feature : Feature, Pads item feature.name.toList) ∨
    ∃ name : String, Pads item name.toList ∧ name ≠ "" ∧
      ∀ feature : Feature, name ≠ feature.name := by
  have padded : Pads item (String.ofList (Text.trimChars item)).toList := by
    rw [String.toList_ofList]
    exact Text.pads_trimChars item
  by_cases blank : String.ofList (Text.trimChars item) = ""
  · rw [blank] at padded
    exact .inl padded
  · by_cases known : ∃ feature : Feature, String.ofList (Text.trimChars item) = feature.name
    · obtain ⟨feature, named⟩ := known
      exact .inr (.inl ⟨feature, named ▸ padded⟩)
    · exact .inr (.inr ⟨_, padded, blank, not_exists.mp known⟩)

/-- Items are either a list of features or have a first unknown one. -/
theorem readItems_cases (items : List (List Char)) :
    (∃ features, readItems items = .ok features ∧ Lists items features) ∨
    ∃ name, readItems items = .error (.unknownFeature name) ∧ FirstUnknown items name := by
  induction items with
  | nil => exact .inl ⟨[], rfl, .nil⟩
  | cons item items ih =>
    obtain padding | ⟨feature, named⟩ | ⟨name, padded, filled, unknown⟩ := item_cases item
    · rw [readItems_blank padding]
      obtain ⟨features, read, lists⟩ | ⟨name, read, before, other, behind, features, rfl, lists,
        unknown⟩ := ih
      · exact .inl ⟨features, read, .blank padding lists⟩
      · exact .inr ⟨name, read, item :: before, other, behind, features, rfl,
          .blank padding lists, unknown⟩
    · rw [readItems_name named]
      obtain ⟨features, read, lists⟩ | ⟨name, read, before, other, behind, features, rfl, lists,
        unknown⟩ := ih
      · exact .inl ⟨feature :: features, by rw [read]; rfl, .name named lists⟩
      · exact .inr ⟨name, by rw [read]; rfl, item :: before, other, behind, feature :: features,
          rfl, .name named lists, unknown⟩
    · exact .inr ⟨name, readItems_unknown padded filled unknown items, [], item, items, [], rfl,
        .nil, padded, filled, unknown⟩

theorem Lists.readItems_append (h : Lists items features) (behind : List (List Char)) :
    readItems (items ++ behind) = (readItems behind).map (features ++ ·) := by
  induction h with
  | nil => cases h : readItems behind <;> simp [h, Except.map]
  | blank padding rest ih => rw [List.cons_append, readItems_blank padding, ih]
  | name named rest ih =>
    rw [List.cons_append, readItems_name named, ih]
    cases readItems behind <;> rfl

theorem Lists.readItems (h : Lists items features) : readItems items = .ok features := by
  have read := h.readItems_append []
  rwa [List.append_nil, readItems_nil, Except.map, List.append_nil] at read

theorem FirstUnknown.readItems (h : FirstUnknown items name) :
    readItems items = .error (.unknownFeature name) := by
  obtain ⟨before, item, behind, features, rfl, lists, padded, filled, unknown⟩ := h
  rw [lists.readItems_append, readItems_unknown padded filled unknown]
  rfl

/-- Splitting a text at commas gives the items that it joins, with the one exception that a text
without characters has an item. That one is blank. -/
theorem readItems_splitOn (joins : Joins ',' cs items) :
    readItems (cs.splitOn ',') = readItems items := by
  cases items with
  | nil =>
    obtain rfl : cs = [] := joins.joined
    rfl
  | cons item items => rw [joins.splitOn_eq (List.cons_ne_nil _ _)]

theorem featuresVariable_eq_ok_iff :
    featuresVariable lookup key = .ok features ↔ HoldsFeatures (lookup key) features := by
  rw [featuresVariable]
  cases lookup key with
  | none => simp [HoldsFeatures, eq_comm]
  | some value =>
    change readItems (value.toList.splitOn ',') = .ok features ↔ _
    constructor
    · intro read
      obtain ⟨features', read', lists⟩ | ⟨name, read', -⟩ :=
        readItems_cases (value.toList.splitOn ',')
      · obtain rfl := Except.ok.inj (read'.symm.trans read)
        exact ⟨_, Text.joins_splitOn ',' _, lists⟩
      · exact nomatch read'.symm.trans read
    · rintro ⟨items, joins, lists⟩
      rw [readItems_splitOn joins, lists.readItems]

theorem featuresVariable_eq_error_iff :
    featuresVariable lookup key = .error e ↔
      ∃ value items name, lookup key = some value ∧ Joins ',' value.toList items ∧
        FirstUnknown items name ∧ e = .unknownFeature name := by
  rw [featuresVariable]
  cases lookup key with
  | none => simp
  | some value =>
    change readItems (value.toList.splitOn ',') = .error e ↔ _
    constructor
    · intro read
      obtain ⟨features, read', -⟩ | ⟨name, read', unknown⟩ :=
        readItems_cases (value.toList.splitOn ',')
      · exact nomatch read'.symm.trans read
      · exact ⟨value, _, name, rfl, Text.joins_splitOn ',' _, unknown,
          (Except.error.inj (read'.symm.trans read)).symm⟩
    · rintro ⟨_, items, name, ⟨⟩, joins, unknown, rfl⟩
      rw [readItems_splitOn joins, unknown.readItems]

/-- No comma stands in a list of features but between its items. -/
theorem Lists.separate (h : Lists items features) : ∀ item ∈ items, ',' ∉ item := by
  have solid (feature : Feature) : ',' ∉ feature.name.toList := by cases feature <;> decide
  induction h with
  | nil => exact fun _ member => absurd member List.not_mem_nil
  | blank padding rest ih =>
    refine List.forall_mem_cons.mpr ⟨fun comma => ?_, ih⟩
    exact (padding.mem comma).elim (by decide) List.not_mem_nil
  | name named rest ih =>
    refine List.forall_mem_cons.mpr ⟨fun comma => ?_, ih⟩
    exact (named.mem comma).elim (by decide) (solid _)

end Features

section Environment

/-- The settings that the three variables describe. -/
structure Describes (lookup : String → Option String) (s : Settings) : Prop where
  cacheCapacity :
    HoldsNumber (lookup "EL_CACHE_CAPACITY") default.cacheCapacity s.cacheCapacity
  concurrency : HoldsNumber (lookup "EL_CACHE_CONCURRENCY") default.concurrency s.concurrency
  features : HoldsFeatures (lookup "EL_FEATURES") s.features

/-- What stands first against the environment: a constructor for every failure, each under the
condition that those before it do not apply. -/
inductive FailsFirst (lookup : String → Option String) : ConfigError → Prop
  | cacheCapacity {value : String} (set : lookup "EL_CACHE_CAPACITY" = some value)
      (other : ∀ n, ¬ HoldsNumber (some value) default.cacheCapacity n) :
      FailsFirst lookup (.notANumber "EL_CACHE_CAPACITY" value)
  | concurrency {capacity : Nat} {value : String}
      (before : HoldsNumber (lookup "EL_CACHE_CAPACITY") default.cacheCapacity capacity)
      (set : lookup "EL_CACHE_CONCURRENCY" = some value)
      (other : ∀ n, ¬ HoldsNumber (some value) default.concurrency n) :
      FailsFirst lookup (.notANumber "EL_CACHE_CONCURRENCY" value)
  | features {capacity concurrency : Nat} {value name : String} {items : List (List Char)}
      (before : HoldsNumber (lookup "EL_CACHE_CAPACITY") default.cacheCapacity capacity)
      (before' : HoldsNumber (lookup "EL_CACHE_CONCURRENCY") default.concurrency concurrency)
      (set : lookup "EL_FEATURES" = some value) (joins : Joins ',' value.toList items)
      (unknown : FirstUnknown items name) : FailsFirst lookup (.unknownFeature name)
  | zero {s : Settings} (described : Describes lookup s) (zero : s.cacheCapacity = 0) :
      FailsFirst lookup .zeroCacheCapacity

theorem validate_eq_ok_iff {t : Settings} :
    t.validate = .ok s ↔ t = s ∧ t.cacheCapacity ≠ 0 := by
  rw [validate]
  split <;> simp [*]

theorem validate_eq_error_iff :
    s.validate = .error e ↔ s.cacheCapacity = 0 ∧ e = .zeroCacheCapacity := by
  rw [validate]
  split <;> simp [*, eq_comm]

theorem ofEnvironment_eq_ok_iff :
    ofEnvironment lookup = .ok s ↔ Describes lookup s ∧ s.cacheCapacity ≠ 0 := by
  simp only [ofEnvironment, bind_eq_ok_iff, numberVariable_eq_ok_iff, featuresVariable_eq_ok_iff,
    validate_eq_ok_iff]
  constructor
  · rintro ⟨_, capacity, _, concurrency, _, features, rfl, positive⟩
    exact ⟨⟨capacity, concurrency, features⟩, positive⟩
  · rintro ⟨⟨capacity, concurrency, features⟩, positive⟩
    exact ⟨_, capacity, _, concurrency, _, features, rfl, positive⟩

theorem ofEnvironment_eq_error_iff :
    ofEnvironment lookup = .error e ↔ FailsFirst lookup e := by
  simp only [ofEnvironment, bind_eq_error_iff, numberVariable_eq_error_iff,
    numberVariable_eq_ok_iff, featuresVariable_eq_error_iff, featuresVariable_eq_ok_iff,
    validate_eq_error_iff]
  constructor
  · rintro (⟨_, set, other, rfl⟩ | ⟨_, before, ⟨_, set, other, rfl⟩ | ⟨_, before',
      ⟨_, _, _, set, joins, unknown, rfl⟩ | ⟨_, features, zero, rfl⟩⟩⟩)
    · exact .cacheCapacity set other
    · exact .concurrency before set other
    · exact .features before before' set joins unknown
    · have described : Describes lookup ⟨_, _, _⟩ := ⟨before, before', features⟩
      exact .zero described zero
  · rintro (⟨set, other⟩ | ⟨before, set, other⟩ | ⟨before, before', set, joins, unknown⟩ |
      ⟨⟨capacity, concurrency, features⟩, zero⟩)
    · exact .inl ⟨_, set, other, rfl⟩
    · exact .inr ⟨_, before, .inl ⟨_, set, other, rfl⟩⟩
    · exact .inr ⟨_, before, .inr ⟨_, before', .inl ⟨_, _, _, set, joins, unknown, rfl⟩⟩⟩
    · exact .inr ⟨_, capacity, .inr ⟨_, concurrency, .inr ⟨_, features, zero, rfl⟩⟩⟩

/-- An environment gives just the settings that its variables describe, with a positive capacity,
and otherwise the error that stands first. So it gives back settings whose numbers and names are
written into the variables, with white space and blank items as one likes. -/
theorem ofEnvironment_exact (lookup : String → Option String) :
    (∀ s, ofEnvironment lookup = .ok s ↔ Describes lookup s ∧ s.cacheCapacity ≠ 0) ∧
    (∀ e, ofEnvironment lookup = .error e ↔ FailsFirst lookup e) ∧
    ∀ (s : Settings) (capacity concurrency features : String) (items : List (List Char)),
      0 < s.cacheCapacity → s.cacheCapacity ≤ maxNumber → s.concurrency ≤ maxNumber →
      lookup "EL_CACHE_CAPACITY" = some capacity →
      Pads capacity.toList (Digits.ofNat s.cacheCapacity) →
      lookup "EL_CACHE_CONCURRENCY" = some concurrency →
      Pads concurrency.toList (Digits.ofNat s.concurrency) →
      lookup "EL_FEATURES" = some features →
      features.toList = [','].intercalate items → Lists items s.features →
      ofEnvironment lookup = .ok s := by
  refine ⟨fun s => ofEnvironment_eq_ok_iff, fun e => ofEnvironment_eq_error_iff, ?_⟩
  intro s capacity concurrency features items positive bound bound' setCapacity padded
    setConcurrency padded' setFeatures joined lists
  have described : Describes lookup s := by
    refine ⟨?_, ?_, ?_⟩
    · rw [setCapacity]
      exact ⟨_, padded, isNumeral_ofNat bound⟩
    · rw [setConcurrency]
      exact ⟨_, padded', isNumeral_ofNat bound'⟩
    · rw [setFeatures]
      exact ⟨items, ⟨joined, lists.separate⟩, lists⟩
  exact ofEnvironment_eq_ok_iff.mpr ⟨described, Nat.ne_of_gt positive⟩

/-- Two features with white space around the first name and a blank item before the second. -/
theorem ofEnvironment_exact_spaced :
    let lookup : String → Option String := fun key =>
      if key = "EL_CACHE_CAPACITY" then some " 10"
      else if key = "EL_CACHE_CONCURRENCY" then some "2\n"
      else some " varargs\t, ,method_invocations"
    ofEnvironment lookup = .ok ⟨10, 2, [.varargs, .methodInvocations]⟩ := by
  intro lookup
  have lists : Lists [" varargs\t".toList, " ".toList, "method_invocations".toList]
      [.varargs, .methodInvocations] :=
    .name (Text.pads_iff.mpr (by decide)) (.blank (Text.pads_iff.mpr (by decide))
      (.name (Text.pads_iff.mpr (by decide)) .nil))
  exact (ofEnvironment_exact lookup).2.2 ⟨10, 2, [.varargs, .methodInvocations]⟩ " 10" "2\n"
    " varargs\t, ,method_invocations" _ (by decide) (by decide) (by decide) rfl
    (Text.pads_iff.mpr (by decide)) rfl (Text.pads_iff.mpr (by decide)) rfl (by decide) lists

end Environment

end ElTemplate.Settings
