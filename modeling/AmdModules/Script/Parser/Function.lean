import AmdModules.Script.Parser.Member

/-!
# Functions

Parameters, bodies and arrows. A body whose closing brace is missing ends with the text.
-/

set_option autoImplicit false

namespace AmdModules.Script.Parser

/-- Statements in braces, braces included. With `directives`, a leading `use strict` makes all of
them strict. The text may end in place of the closing brace. -/
def braced (g : Grammar) (directives : Bool) : Parser (List Node) := do
  expect "\x7b"
  let strict := directives && (← token).kind == .string "use strict"
  let items ← within (fun c => { c with strict := c.strict || strict, topLevel := false })
    (manyUntil (isMarkOrEnd "\x7d") (do return [← g.parse (.statement true)]) g.limit)
  discard (eat "\x7d")
  return items

/-- The body of a function. -/
def functionBody (g : Grammar) (async generator : Bool) : Parser Node := do
  let start ← position
  let items ← within
    (fun c =>
      { c with
        inAsync := async
        inGenerator := generator
        inStaticBlock := false
        inParameters := false
        allowIn := true
        inForHead := false })
    (braced g true)
  node .body start items

/-- One parameter, with its decorators in front of it. -/
def parameter (g : Grammar) : Parser (List Node) := do
  let marks ← decorators g
  let start ← position
  if ← eat "..." then
    let inner ← g.parse (.binding false)
    if ← eat "=" then
      let right ← g.parse .assignment
      let inner ← node .defaultPattern inner.span.start [inner, right]
      return marks ++ [← node .rest start [inner]]
    else return marks ++ [← node .rest start [inner]]
  else
    let left ← g.parse (.binding false)
    if ← eat "=" then
      let right ← g.parse .assignment
      return marks ++ [← node .defaultPattern start [left, right]]
    else return marks ++ [left]

/-- The parameters of a function, parentheses included. -/
def parameters (g : Grammar) (async generator : Bool) : Parser (List Node) := do
  expect "("
  let items ← within
    (fun c => { c with inParameters := true, inAsync := async, inGenerator := generator })
    (manyUntil (isMarkOrEnd ")") (do
      let item ← parameter g
      separator ")"
      return item) g.limit)
  expect ")"
  return items

/-- A function from its parameters on. -/
def functionFrom (g : Grammar) (async generator : Bool) (start : Nat)
    (name decorators : List Node) : Parser Node := do
  let items ← parameters g async generator
  let body ← functionBody g async generator
  node (.function async generator) start (name ++ items ++ decorators ++ [body])

/-- A function expression, from the word `function` on. -/
def functionExpression (g : Grammar) (async : Bool) (start : Nat) : Parser Node := do
  expectWord "function"
  let generator ← eat "*"
  let name ← within ({ · with inAsync := async, inGenerator := generator })
    (optionalBindingIdentifier false)
  functionFrom g async generator start name []

/-- A function declaration, from the word `function` on. Only a default export may go without a
name. -/
def functionDeclaration (g : Grammar) (async named : Bool) (start : Nat)
    (decorators : List Node) : Parser Node := do
  expectWord "function"
  let generator ← eat "*"
  let name ←
    if named then (do return [← bindingIdentifier false]) else optionalBindingIdentifier false
  functionFrom g async generator start name decorators

/-- An arrow function behind its arrow. -/
def arrowFrom (g : Grammar) (async : Bool) (start : Nat) (items : List Node) : Parser Node := do
  if ← isMark "\x7b" then
    let body ← functionBody g async false
    node (.arrow async) start (items ++ [body])
  else
    let body ← within ({ · with inAsync := async, inGenerator := false }) (g.parse .assignment)
    node (.arrow async) start (items ++ [body])

end AmdModules.Script.Parser
