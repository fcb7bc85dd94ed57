/-!
# Call sites, signatures and bindings

Templates never run functions or read variables. They name call sites and variables in two
inventories, and bindings record for each entry what a caller resolved it to.
-/

namespace ElTemplate

/-- A function that a caller offers. A variadic function takes any number of arguments in place of
its last parameter. -/
structure Signature where
  /-- The name, with its qualifier and a colon before it if it has one. -/
  name : String
  params : Nat
  variadic : Bool
deriving DecidableEq, Repr, Inhabited

/-- A way in which a template calls a function. -/
structure CallSite where
  qualifier : Option String
  name : String
  /-- The number of arguments. -/
  arity : Nat
  /-- Whether variadic signatures may absorb arguments here. -/
  variadic : Bool
deriving DecidableEq, Repr, Inhabited

namespace CallSite

/-- The name with its qualifier, if it has one. -/
def qualifiedName (site : CallSite) : String :=
  match site.qualifier with
  | some qualifier => qualifier ++ ":" ++ site.name
  | none => site.name

/-- Whether a function of this signature may be called here. A variadic signature needs an
argument for every parameter but the last. -/
def accepts (site : CallSite) (signature : Signature) : Bool :=
  if site.variadic && signature.variadic then signature.params ≤ site.arity + 1
  else site.arity == signature.params

end CallSite

/-- What the entries of a template's inventories are bound to, by index. -/
structure Bindings (β : Type) where
  functions : List (Option Signature)
  values : List (Option β)
deriving Repr

namespace Bindings

variable {β : Type}

/-- Nothing is bound. -/
def empty : Bindings β :=
  ⟨[], []⟩

/-- The signature bound at an index; none past the end. -/
def signature? (b : Bindings β) (index : Nat) : Option Signature :=
  b.functions[index]?.join

/-- The value bound at an index; none past the end. -/
def value? (b : Bindings β) (index : Nat) : Option β :=
  b.values[index]?.join

@[simp] theorem signature?_empty (index : Nat) :
    (empty : Bindings β).signature? index = none := rfl

@[simp] theorem value?_empty (index : Nat) : (empty : Bindings β).value? index = none := rfl

end Bindings

end ElTemplate
