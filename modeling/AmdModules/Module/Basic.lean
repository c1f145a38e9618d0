import AmdModules.Json.Writer
import AmdModules.ModuleId

/-!
# Modules

A module is its name, the place of its source, its text and the dependencies found so far. The
dependencies only ever grow, and keep the order they were found in.
-/

set_option autoImplicit false

namespace AmdModules

structure Module where
  name : String
  specifier : Url
  content : List Char
  dependencies : List String := []
deriving DecidableEq, Repr

namespace Module

/-- A module whose source lives where its name says. -/
def ofBase (base : Url) (name : String) (content : List Char) : Except SpecifierError Module :=
  match ModuleId.resolve base name with
  | .ok specifier => .ok { name, specifier, content }
  | .error e => .error e

/-- A module as JSON: for its text only the number of bytes, and dependencies only if there are
some. -/
def render (m : Module) : List Char :=
  Json.writeObject
    [("name", some (Json.writeText m.name)),
      ("specifier", some (Json.writeText (toString m.specifier))),
      ("size", some (Nat.toDigits 10 (Text.byteLength m.content % 0x100000000))),
      ("dependencies",
        if m.dependencies.isEmpty then none else some (Json.writeTexts m.dependencies))]

end Module

end AmdModules
