import ElTemplate.Text.Blank

/-!
# Optional language features

Two extensions of the expression language can be enabled, each by its name.
-/

namespace ElTemplate

inductive Feature where
  /-- Arguments may follow a property or an item. -/
  | methodInvocations
  /-- Variadic functions may take more arguments than they have parameters. -/
  | varargs
deriving DecidableEq, Repr, Inhabited

namespace Feature

/-- The name of a feature in configurations. -/
def name : Feature → String
  | methodInvocations => "method_invocations"
  | varargs => "varargs"

/-- The feature of exactly this name. -/
def ofName? (name : String) : Option Feature :=
  if name = methodInvocations.name then some methodInvocations
  else if name = varargs.name then some varargs
  else none

theorem ofName?_name (f : Feature) : ofName? f.name = some f := by
  cases f <;> decide

theorem ofName?_eq_some_iff {name : String} {f : Feature} :
    ofName? name = some f ↔ name = f.name := by
  cases f <;> simp only [ofName?] <;> grind [Feature.name]

end Feature

/-- A set of enabled features. -/
structure FeatureSet where
  methodInvocations : Bool
  varargs : Bool
deriving DecidableEq, Repr

namespace FeatureSet

/-- No feature is enabled. -/
def none : FeatureSet :=
  ⟨false, false⟩

def contains (features : FeatureSet) : Feature → Bool
  | .methodInvocations => features.methodInvocations
  | .varargs => features.varargs

/-- The set of the listed features. -/
def ofList (features : List Feature) : FeatureSet :=
  ⟨features.contains .methodInvocations, features.contains .varargs⟩

/-- The enabled features, each once, in a fixed order. -/
def toList (features : FeatureSet) : List Feature :=
  [Feature.methodInvocations, .varargs].filter features.contains

@[simp] theorem contains_ofList (features : List Feature) (f : Feature) :
    (ofList features).contains f = features.contains f := by
  cases f <;> rfl

end FeatureSet

end ElTemplate
