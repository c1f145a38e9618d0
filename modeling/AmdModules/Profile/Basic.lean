import AmdModules.ModuleId
import AmdModules.Shim.Basic

/-!
# Build profiles

What a build may choose: where modules live, whether `use strict` stays, whether calls of `require`
inside functions count, and the shims of scripts that do not call `define`.
-/

set_option autoImplicit false

namespace AmdModules

/-- Shims by module name, in the order they were first named. -/
abbrev Shims := List (String × Shim)

namespace Shims

/-- Sets the shim of a name. A name that is there keeps its place. -/
def insert (name : String) (shim : Shim) : Shims → Shims
  | [] => [(name, shim)]
  | entry :: entries =>
    if entry.1 = name then (name, shim) :: entries else entry :: insert name shim entries

end Shims

/-- The choices of a build. -/
structure Profile where
  /-- Where modules live, if it is said. -/
  baseUrl : Option Url := none
  /-- Whether `use strict` statements stay. -/
  useStrict : Bool := false
  /-- Whether calls of `require` count wherever they stand. -/
  findNestedDependencies : Bool := false
  shims : Shims := []
deriving DecidableEq, Repr, Inhabited

namespace Profile

/-- The shim of a module. -/
def shim? (p : Profile) (name : String) : Option Shim :=
  p.shims.lookup name

/-- Where modules live. -/
def base (p : Profile) : Url :=
  p.baseUrl.getD ModuleId.defaultBase

/-- Where the module of a name lives. -/
def resolve (p : Profile) (name : String) : Except SpecifierError Url :=
  ModuleId.resolve p.base name

end Profile

end AmdModules
