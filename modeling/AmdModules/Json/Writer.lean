import AmdModules.Json.Text
import AmdModules.Text.Split

/-!
# Writing JSON

JSON is written without blank space, and the members of an object in the order they are given.
-/

set_option autoImplicit false

namespace AmdModules.Json

/-- A list of values that are written already. -/
def writeList (items : List (List Char)) : List Char :=
  ['['] ++ Text.joinWith [','] items ++ [']']

/-- A list of strings. -/
def writeTexts (texts : List String) : List Char :=
  writeList (texts.map writeText)

/-- A truth value. -/
def writeBool (b : Bool) : List Char :=
  (if b then "true" else "false").toList

/-- A key and its value. -/
def writeMember (key : String) (value : List Char) : List Char :=
  writeText key ++ [':'] ++ value

/-- An object; members without a value are left out. -/
def writeObject (members : List (String × Option (List Char))) : List Char :=
  ['\x7b']
    ++ Text.joinWith [','] (members.filterMap fun (key, value) => value.map (writeMember key))
    ++ ['\x7d']

end AmdModules.Json
