import AmdModules.Json.Value
import AmdModules.Json.Writer
import AmdModules.Shim.Basic

/-!
# Shims in JSON

A shim is written as an object and read from an object or from a plain list of what is needed.
-/

set_option autoImplicit false

namespace AmdModules.Shim

open Json (Reader)

/-- A string. -/
def string? : Json → Option String
  | .string text => some text
  | _ => none

/-- A list of strings. -/
def strings? : Json → Option (List String)
  | .list items => items.mapM string?
  | _ => none

/-- A string or `null`. -/
def nullable? : Json → Option (Option String)
  | .null => some none
  | .string text => some (some text)
  | _ => none

/-- The one value of a key: `missing` when the key is missing, `none` when it is repeated or its
value cannot be read. -/
def member? {α : Type} (members : List (String × Json)) (key : String) (missing : α)
    (read : Json → Option α) : Option α :=
  match members.filter (·.1 == key) with
  | [] => some missing
  | [(_, value)] => read value
  | _ => none

/-- The parts of a shim: a list, or an object that may leave parts out. -/
def parts? : Json → Option (List String × Option String × Option String)
  | .object members => do
    let deps ← member? members "deps" [] strings?
    let exports ← member? members "exports" none nullable?
    let init ← member? members "init" none nullable?
    return (deps, exports, init)
  | json => (strings? json).map fun deps => (deps, none, none)

/-- Reads a shim. -/
def read (depth : Nat) : Reader Shim := do
  match parts? (← Reader.value depth) with
  | none => Reader.unwanted "data did not match any variant of untagged enum RawShim"
  | some (deps, exports, init) =>
    match ofParts deps exports init with
    | .ok shim => return shim
    | .error e => Reader.unwanted e.message

/-- The shim a text stands for. -/
def parse (text : List Char) : Except Json.Fault Shim :=
  (read Reader.depthLimit).run text

/-- The text of a shim. What it does not say is left out. -/
def render (shim : Shim) : List Char :=
  Json.writeObject
    [("deps", some (Json.writeTexts shim.deps)),
      ("exports", shim.exports.map Json.writeText),
      ("init", shim.init.map Json.writeText)]

end AmdModules.Shim
