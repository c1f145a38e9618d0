import AmdModules.Script.Parser.Function

/-!
# Array and object literals
-/

set_option autoImplicit false

namespace AmdModules.Script.Parser

/-- An array literal. A comma with nothing in front of it is a hole. -/
def arrayLiteral (g : Grammar) : Parser Node := do
  let start ← position
  expect "["
  let items ← manyUntil (isMarkOrEnd "]") (do
    let here ← position
    if ← eat "," then return [.mk .hole ⟨here, here⟩ []]
    else
      let item ← element g
      separator "]"
      return [item]) g.limit
  expect "]"
  node .array start items

/-- A method of an object literal, from its parameters on. -/
def methodFrom (g : Grammar) (async generator : Bool) (start : Nat) (key : Node) :
    Parser Node := do
  let function ← functionFrom g async generator start [] []
  node .method start [key, function]

/-- A getter from its parameters on. It has none; if some are written they are dropped. -/
def getterFrom (g : Grammar) (start : Nat) (key : Node) : Parser Node := do
  discard (parameters g false false)
  let body ← functionBody g false false
  node .getter start [key, body]

/-- A setter from its parameter on. Of more than two parameters the first two are kept. -/
def setterFrom (g : Grammar) (start : Nat) (key : Node) : Parser Node := do
  let items ← parameters g false false
  let body ← functionBody g false false
  node .setter start (key :: items.take 2 ++ [body])

/-- A getter, a setter or an `async` method, behind that word. -/
def modifiedProperty (g : Grammar) (start : Nat) (word : String) : Parser Node := do
  match word with
  | "get" => getterFrom g start (← propertyName g)
  | "set" => setterFrom g start (← propertyName g)
  | "async" =>
    let generator ← eat "*"
    methodFrom g true generator start (← propertyName g)
  | _ => refuse

/-- One property of an object literal. -/
def property (g : Grammar) : Parser Node := do
  let start ← position
  if ← eat "..." then
    let inner ← allowingIn (g.parse .assignment)
    node .spread start [inner]
  else if ← eat "*" then methodFrom g false true start (← propertyName g)
  else
    let key ← propertyName g
    if ← eat ":" then
      let value ← allowingIn (g.parse .assignment)
      node .property start [key, value]
    else if ← isMark "(" then methodFrom g false false start key
    else
      match key.kind with
      | .name word =>
        discard (eat "?")
        if ← eat "=" then
          let value ← allowingIn (g.parse .assignment)
          node (.shorthandDefault word) start [value]
        else if (← isMark ",") || (← isMark "\x7d") then node (.shorthand word) start []
        else modifiedProperty g start word
      | _ => refuse

/-- An object literal. -/
def objectLiteral (g : Grammar) : Parser Node := do
  let start ← position
  expect "\x7b"
  let items ← manyUntil (isMarkOrEnd "\x7d") (do
    let item ← property g
    separator "\x7d"
    return [item]) g.limit
  expect "\x7d"
  node .object start items

end AmdModules.Script.Parser
