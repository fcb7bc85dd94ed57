import ElTemplate.Number.Digits
import ElTemplate.Settings.Basic
import ElTemplate.Yaml.Block

/-!
# Settings in YAML

Configurations are read and written by a format, of which nothing is known here but what its parts
are for. One such format follows. In it a configuration is a mapping in which each known key stands
at most once; other keys are ignored, and an empty document means the defaults. A number is a plain
scalar, a list of features holds their exact names. Settings are written in block form, the empty
list as brackets.
-/

namespace ElTemplate

/-- Why a configuration cannot be loaded. -/
inductive LoadError where
  /-- There is no such file. -/
  | missing
  /-- The text is no configuration. -/
  | malformed
  | invalid (e : ConfigError)
deriving DecidableEq, Repr

namespace Settings

open Yaml (Value)

/-- How configurations are read and written, each part unless it fails. -/
structure Format where
  /-- The document that a text holds. -/
  document : String → Option Value
  /-- The settings that a document describes. -/
  decode : Value → Option Settings
  /-- The text for settings. -/
  write : Settings → Option String

/-- The settings that a text describes. -/
def ofYaml (format : Format) (text : String) : Except LoadError Settings :=
  match (format.document text).bind format.decode with
  | none => .error .malformed
  | some settings =>
    match settings.validate with
    | .ok settings => .ok settings
    | .error e => .error (.invalid e)

/-- The settings in a file, whose content is given if there is such a file. -/
def load (format : Format) (content : Option String) : Except LoadError Settings :=
  match content with
  | some text => ofYaml format text
  | none => .error .missing

/-- The number that digits of a base spell. -/
def ofRadix? (base : Nat) (cs : List Char) : Option Nat := do
  if cs = [] then none
  else
    let values ← cs.mapM fun c => (Yaml.hexValue? c).filter (· < base)
    return values.foldl (base * · + ·) 0

/-- The number that a plain scalar spells: an optional plus sign, and decimal digits without
superfluous zeros or the digits of a base that is marked by a letter. -/
def plainNumber? (cs : List Char) : Option Nat :=
  let unsigned := match cs with
    | '+' :: rest => rest
    | _ => cs
  let number := match unsigned with
    | '0' :: 'x' :: digits => ofRadix? 16 digits
    | '0' :: 'o' :: digits => ofRadix? 8 digits
    | '0' :: 'b' :: digits => ofRadix? 2 digits
    | '0' :: _ :: _ => none
    | digits => Digits.toNat? digits
  number.filter (· ≤ maxNumber)

def numberOfValue? : Value → Option Nat
  | .plain text => plainNumber? text
  | _ => none

def featureOfValue? (v : Value) : Option Feature :=
  v.text?.bind fun text => Feature.ofName? (String.ofList text)

def featuresOfValue? : Value → Option (List Feature)
  | .plain [] => some []
  | .sequence items => items.mapM featureOfValue?
  | _ => none

/-- The value of a key that may stand once, or the default where it is absent. -/
def field? {α : Type} (entries : List (Value × Value)) (key : String)
    (read? : Value → Option α) (otherwise : α) : Option α :=
  match entries.filter fun entry => entry.1.text? == some key.toList with
  | [] => some otherwise
  | [(_, value)] => read? value
  | _ => none

/-- The settings that a document describes. -/
def ofValue? : Value → Option Settings
  | .plain [] => some default
  | .mapping entries =>
    if entries.all fun entry => entry.1.text?.isSome then do
      let cacheCapacity ← field? entries "cache_capacity" numberOfValue? default.cacheCapacity
      let concurrency ← field? entries "concurrency" numberOfValue? default.concurrency
      let features ← field? entries "features" featuresOfValue? default.features
      return ⟨cacheCapacity, concurrency, features⟩
    else none
  | _ => none

/-- The lines for a list of features. -/
def featureLines (features : List Feature) : List String :=
  if features = [] then ["features: []"]
  else "features:" :: features.map fun feature => "- " ++ feature.name

/-- The lines of settings in YAML. -/
def yamlLines (s : Settings) : List String :=
  ("cache_capacity: " ++ toString s.cacheCapacity) ::
    ("concurrency: " ++ toString s.concurrency) :: featureLines s.features

/-- Settings in YAML. -/
def toYaml (s : Settings) : String :=
  String.join (s.yamlLines.map (· ++ "\n"))

/-- The format of this library. -/
def Format.yaml : Format :=
  ⟨fun text => Yaml.read text.toList, ofValue?, fun s => some s.toYaml⟩

end Settings

end ElTemplate
