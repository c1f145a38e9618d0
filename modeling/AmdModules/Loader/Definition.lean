import AmdModules.Loader.Call

/-!
# What a definition lacks

A complete call of `define` starts with the id of the module and the array of what it needs. Both
may be left out in a script of its own file, but not where many modules stand in one file.
-/

set_option autoImplicit false

namespace AmdModules.Loader

open Script (Node)

/-- Which of its first arguments a call of `define` has. -/
structure Shape where
  hasId : Bool
  hasDependencies : Bool
deriving DecidableEq, Repr

namespace Shape

/-- Looks at the first argument for an id, and for the array behind the id or in its place. -/
def ofArguments : List Node → Shape
  | [] => ⟨false, false⟩
  | [only] => ⟨isString only, isArray only⟩
  | first :: second :: _ =>
    if isString first then ⟨true, isArray second⟩ else ⟨false, isArray first⟩

def isComplete (s : Shape) : Bool :=
  s.hasId && s.hasDependencies

end Shape

/-- What has to be put into a call of `define`. -/
inductive Repair where
  /-- The id goes in front of all arguments, with an empty array behind it if there is none. -/
  | id (withDependencies : Bool)
  /-- An empty array goes behind the id. -/
  | dependencies
deriving DecidableEq, Repr

/-- What a call with the given arguments lacks. -/
def repair? (arguments : List Node) : Option Repair :=
  let shape := Shape.ofArguments arguments
  if shape.isComplete then none
  else if shape.hasId then some .dependencies
  else some (.id (!shape.hasDependencies))

end AmdModules.Loader
