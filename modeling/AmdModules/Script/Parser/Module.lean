import AmdModules.Script.Parser.Statement

/-!
# Imports and exports

They stand at the top level only, and the first of them makes the text a module. In the tree they
hold the expressions and declarations that stand in them; the names they bind are not kept.
-/

set_option autoImplicit false

namespace AmdModules.Script.Parser

/-- A name as one module shows it to another: any word, or a string. -/
def exportedName : Parser Node := do
  match (← token).kind with
  | .word name => leaf (.name name)
  | .string value => leaf (.string value)
  | _ => refuse

/-- The string that names another module. -/
def moduleString : Parser Unit := do
  match (← token).kind with
  | .string _ => advance
  | _ => refuse

/-- Attributes of an import, if there are some. -/
def attributes (g : Grammar) : Parser (List Node) := do
  if (← token).onNewLine then return []
  else if (← eatWord "with") || (← eatWord "assert") then
    if ← isMark "\x7b" then return [← objectLiteral g] else refuse
  else return []

/-- The end of an import or export that names another module. -/
def fromClause (g : Grammar) : Parser (List Node) := do
  expectWord "from"
  moduleString
  let parts ← attributes g
  expectSemicolon
  return parts

/-- One name in the braces of an import. A reserved word or a string needs a name of its own. -/
def importedName : Parser Unit := do
  let name ← exportedName
  if ← eatWord "as" then discard (bindingIdentifier false)
  else
    let c ← context
    match name.kind with
    | .name word => if reserves c true word then refuse else return ()
    | _ => refuse

/-- Names in braces, separated by commas. -/
def namesInBraces (g : Grammar) (item : Parser Unit) : Parser Unit := do
  expect "\x7b"
  discard (manyUntil (isMarkOrEnd "\x7d") (do
    item
    separator "\x7d"
    return ([] : List Node)) g.limit)
  expect "\x7d"

/-- The names behind `import`: in braces, or as a whole behind a star. -/
def importedNames (g : Grammar) : Parser Unit := do
  if ← eat "*" then
    expectWord "as"
    discard (bindingIdentifier false)
  else if ← isMark "\x7b" then namesInBraces g importedName
  else return ()

/-- An import declaration. -/
def importDeclaration (g : Grammar) : Parser Node := do
  let start ← position
  enterModule
  expectWord "import"
  match (← token).kind with
  | .string _ =>
    advance
    let parts ← attributes g
    expectSemicolon
    node .importDeclaration start parts
  | _ =>
    if ← namesSomething (← token) then
      discard (bindingIdentifier false)
      if !(← isWord "from") then expect ","
    importedNames g
    let parts ← fromClause g
    node .importDeclaration start parts

/-- One name in the braces of an export. -/
def exportedPair : Parser Unit := do
  discard exportedName
  if ← eatWord "as" then discard exportedName

/-- A default export, behind the word `default`. -/
def exportDefaultFrom (g : Grammar) (start : Nat) (marks : List Node) : Parser Node := do
  let later ← decorators g
  let marks := marks ++ later
  let following ← peek
  if ← isWord "class" then
    let inner ← classFrom g false (← position) marks
    node .exportDefault start [inner]
  else if ← isWord "function" then
    let inner ← functionDeclaration g false false (← position) marks
    node .exportDefault start [inner]
  else if (← isWord "async") && following.kind == .word "function" && !following.onNewLine then
    let here ← position
    advance
    let inner ← functionDeclaration g true false here marks
    node .exportDefault start [inner]
  else
    let value ← allowingIn (g.parse .assignment)
    expectSemicolon
    node .exportDefault start [value]

/-- Names that are exported, with the module they come from if there is one. `first` says whether a
default or a star stands in front of them, which then need a module. -/
def exportedNames (g : Grammar) (start : Nat) (first : Bool) : Parser Node := do
  if first && (← isWord "from") then
    let parts ← fromClause g
    node .exportNames start parts
  else
    if first then
      expect ","
    if first && (← eat "*") then
      expectWord "as"
      discard exportedName
      let parts ← fromClause g
      node .exportNames start parts
    else
      namesInBraces g exportedPair
      if ← isWord "from" then
        let parts ← fromClause g
        node .exportNames start parts
      else
        discard eatSemicolon
        node .exportNames start []

/-- Whether `default` is a name re-exported from another module. -/
def reexportsDefault : Parser Bool := do
  let t ← token
  let following ← peek
  let isString : Bool := match following.kind with
    | .string _ => true
    | _ => false
  return (t.kind == .word "from" && isString)
    || (t.kind == .mark "," && (following.kind == .mark "\x7b" || following.kind == .mark "*"))

/-- An export declaration. -/
def exportDeclaration (g : Grammar) (marks : List Node) : Parser Node := do
  let start ← position
  enterModule
  expectWord "export"
  if ← atEnd then refuse
  else if ← eat "*" then
    if ← isWord "from" then
      let parts ← fromClause g
      node .exportAll start parts
    else
      expectWord "as"
      discard exportedName
      exportedNames g start true
  else if ← eatWord "default" then
    if ← reexportsDefault then exportedNames g start true else exportDefaultFrom g start marks
  else
    let later ← decorators g
    if !marks.isEmpty && !later.isEmpty then refuse
    else
      let marks := marks ++ later
      let t ← token
      let following ← peek
      let declared (p : Parser Node) : Parser Node := do
        let inner ← p
        node .exportDeclaration start [inner]
      match t.kind with
      | .word "class" => declared (classFrom g true t.span.start marks)
      | .word "function" => declared (functionDeclaration g false true t.span.start marks)
      | .word "var" => declared (variableList g "var" false)
      | .word "const" => declared (variableList g "const" false)
      | .word word =>
        if word == "async" && following.kind == .word "function" && !following.onNewLine then
          advance
          declared (functionDeclaration g true true t.span.start marks)
        else if word == "let" && followsLet following then declared (variableList g "let" false)
        else
          discard (identifier false false)
          exportedNames g start true
      | _ => exportedNames g start false

/-- A statement, import or export. -/
def statement (g : Grammar) (declarations : Bool) : Parser Node := do
  let start ← position
  let top := (← context).topLevel
  within ({ · with topLevel := false }) do
    let marks ← decorators g
    if ← isWord "import" then
      let following ← peek
      if following.kind == .mark "(" || following.kind == .mark "." then
        importExpressionStatement g start
      else if top then importDeclaration g
      else refuse
    else if ← isWord "export" then
      if top && marks.isEmpty then exportDeclaration g marks else refuse
    else plainStatement g declarations marks start

end AmdModules.Script.Parser
