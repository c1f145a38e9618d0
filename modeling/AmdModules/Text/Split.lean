/-!
# Cutting a text at a character
-/

set_option autoImplicit false

namespace AmdModules.Text

/-- The pieces of a text between the separators; one more than there are separators. -/
def splitOn (separator : Char) : List Char → List (List Char)
  | [] => [[]]
  | c :: cs =>
    if c = separator then [] :: splitOn separator cs
    else
      match splitOn separator cs with
      | [] => [[c]]
      | piece :: pieces => (c :: piece) :: pieces

/-- The text before and after the first separator, if there is one. -/
def splitFirst? (separator : Char) : List Char → Option (List Char × List Char)
  | [] => none
  | c :: cs =>
    if c = separator then some ([], cs)
    else (splitFirst? separator cs).map fun (before, after) => (c :: before, after)

/-- Puts a separator between texts. -/
def joinWith (separator : List Char) : List (List Char) → List Char
  | [] => []
  | [piece] => piece
  | piece :: pieces => piece ++ separator ++ joinWith separator pieces

/-- A letter of the basic alphabet in its small form; everything else as it is. -/
def lower (cs : List Char) : List Char :=
  cs.map Char.toLower

/-- Whether a text ends with another. -/
def endsWith (ending cs : List Char) : Bool :=
  ending.isSuffixOf cs

end AmdModules.Text
