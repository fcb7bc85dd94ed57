import ElTemplate.Template.Basic

/-!
# Binding templates

Binding asks a caller's resolvers for every call site and every variable of a template. Each call
must resolve to a function that accepts its arguments; a variable may stay unbound.
-/

namespace ElTemplate

/-- Finds the signature for a qualifier, if there is one, and a name. -/
abbrev FunctionResolver := Option String → String → Option Signature

/-- Finds the value of a variable. -/
abbrev VariableResolver (β : Type) := String → Option β

/-- Why a template cannot be bound. -/
inductive BindError where
  | unknownFunction (name : String)
  | argumentCount (name : String) (expected actual : Nat)
deriving DecidableEq, Repr

def BindError.message : BindError → String
  | unknownFunction name => "Could not resolve function '" ++ name ++ "'"
  | argumentCount name expected actual =>
    "Function '" ++ name ++ "' expects " ++ toString expected ++ " parameters, got " ++
      toString actual

/-- The resolver that takes the first signature of the qualified name. -/
def FunctionResolver.ofList (signatures : List Signature) : FunctionResolver :=
  fun qualifier name =>
    signatures.find? fun signature =>
      signature.name == match qualifier with
        | some qualifier => qualifier ++ ":" ++ name
        | none => name

/-- The signature for one call site. -/
def CallSite.resolve (site : CallSite) (functions : Option FunctionResolver) :
    Except BindError Signature :=
  match functions.bind fun resolve => resolve site.qualifier site.name with
  | none => .error (.unknownFunction site.qualifiedName)
  | some signature =>
    if site.accepts signature then .ok signature
    else .error (.argumentCount site.qualifiedName signature.params site.arity)

/-- The signatures for call sites in order, or the error of the first one that has none. -/
def CallSite.resolveAll (functions : Option FunctionResolver) :
    List CallSite → Except BindError (List Signature)
  | [] => .ok []
  | site :: rest =>
    match site.resolve functions with
    | .error e => .error e
    | .ok signature =>
      match resolveAll functions rest with
      | .error e => .error e
      | .ok signatures => .ok (signature :: signatures)

/-- The bindings of a template under resolvers; a missing resolver resolves nothing. -/
def Template.bind {β : Type} (t : Template) (functions : Option FunctionResolver)
    (values : Option (VariableResolver β)) : Except BindError (Bindings β) :=
  match CallSite.resolveAll functions t.functions with
  | .error e => .error e
  | .ok signatures =>
    .ok ⟨signatures.map some,
      t.identifiers.map fun name => values.bind fun resolve => resolve name⟩

end ElTemplate
