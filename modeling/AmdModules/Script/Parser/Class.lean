import AmdModules.Script.Parser.Literal

/-!
# Classes

Members, fields, accessors and static blocks. All of a class is strict. A class whose closing brace
is missing ends with the text.
-/

set_option autoImplicit false

namespace AmdModules.Script.Parser

/-- The name of a class member. -/
def classMemberName (g : Grammar) : Parser Node := do
  if ← isMark "#" then privateName else propertyName g

/-- Whether a name is spelled `constructor`, as a word or as a string. -/
def isConstructorName (key : Node) : Bool :=
  key.kind == .name "constructor" || key.kind == .string "constructor"

/-- Whether a field may end behind its name. -/
def atFieldEnd (newLine : Bool) : Parser Bool := do
  if (← isMark "=") || (← isMark "\x7d") then return true
  else if newLine then atSemicolon
  else isMark ";"

/-- A method of a class, from its parameters on. -/
def classMethodFrom (g : Grammar) (async generator : Bool) (start : Nat) (key : Node)
    (decorators : List Node) : Parser Node := do
  let function ← functionFrom g async generator start [] decorators
  node .method start [key, function]

/-- A field, behind its name. The semicolon may be missing. -/
def fieldFrom (g : Grammar) (start : Nat) (key : Node) (decorators : List Node) : Parser Node := do
  if isConstructorName key then refuse
  else
    let value ←
      if ← eat "=" then (do return [← allowingIn (g.parse .assignment)]) else pure []
    discard eatSemicolon
    node .field start (key :: value ++ decorators)

/-- A constructor, from its parameters on. -/
def constructorFrom (g : Grammar) (start : Nat) (key : Node) : Parser Node := do
  let items ← parameters g false false
  let body ← functionBody g false false
  node .constructor start (key :: items ++ [body])

/-- A static block, from its brace on. -/
def staticBlockFrom (g : Grammar) (start : Nat) : Parser Node := do
  let items ← within
    ({ · with inStaticBlock := true, allowIn := true, inAsync := false, inGenerator := false })
    (braced g false)
  node .staticBlock start items

/-- A class member behind its modifiers. -/
def plainMember (g : Grammar) (start : Nat) (marks : List Node) (isStatic : Bool) :
    Parser Node := do
  if isStatic && (← isMark "\x7b") then staticBlockFrom g start
  else if ← eat "*" then
    let key ← classMemberName g
    classMethodFrom g false true start key marks
  else
    let key ← classMemberName g
    if ← isMark "(" then
      if isConstructorName key then constructorFrom g start key
      else classMethodFrom g false false start key marks
    else
      let t ← token
      let accessor :=
        (key.kind == .name "get" || key.kind == .name "set") && !(← atFieldEnd false)
          && !(t.onNewLine && t.kind == .mark "*")
      if !accessor && (← atFieldEnd true) then fieldFrom g start key marks
      else if key.kind == .name "async" && !t.onNewLine then
        let generator ← eat "*"
        let key ← classMemberName g
        if isConstructorName key then refuse else classMethodFrom g true generator start key marks
      else if accessor then
        let key ← classMemberName g
        classMethodFrom g false false start key marks
      else refuse

/-- A modifier that is a member's own name instead: a method or a field called by that word. -/
def memberNamedBy (g : Grammar) (start : Nat) (marks : List Node) (word : Node) :
    Parser (Option Node) := do
  if ← isMark "(" then return some (← classMethodFrom g false false start word marks)
  else if ← atFieldEnd false then return some (← fieldFrom g start word marks)
  else return none

/-- A word that may modify a member, with its place. -/
def modifier (word : String) : Parser (Option Node) := do
  if ← isWord word then return some (← leaf (.name word)) else return none

/-- One member of a class. -/
def classMember (g : Grammar) : Parser Node := do
  let start ← position
  let marks ← decorators g
  let static? ← modifier "static"
  let accessor? ← modifier "accessor"
  match accessor?, static? with
  | some word, _ =>
    match ← memberNamedBy g start marks word with
    | some member => return member
    | none => plainMember g start marks static?.isSome
  | none, some word =>
    match ← memberNamedBy g start marks word with
    | some member => return member
    | none => plainMember g start marks true
  | none, none => plainMember g start marks false

/-- The members of a class, braces included. -/
def classBody (g : Grammar) : Parser (List Node) := do
  expect "\x7b"
  let items ← manyUntil (isMarkOrEnd "\x7d") (do
    if ← eat ";" then return [] else return [← classMember g]) g.limit
  discard (eat "\x7d")
  return items

/-- A class, from the word `class` on. Its superclass stands behind its members in the tree. -/
def classFrom (g : Grammar) (named : Bool) (start : Nat) (decorators : List Node) : Parser Node :=
  within ({ · with strict := true, topLevel := false }) do
    expectWord "class"
    let name ←
      if named then (do return [← bindingIdentifier true]) else optionalBindingIdentifier true
    let parent ←
      if ← eatWord "extends" then (do return [← g.parse .leftHandSide]) else pure []
    if ← eatWord "extends" then discard (g.parse .leftHandSide)
    let members ← classBody g
    node .classDefinition start (name ++ decorators ++ members ++ parent)

end AmdModules.Script.Parser
