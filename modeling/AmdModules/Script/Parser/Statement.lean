import AmdModules.Script.Parser.Expression

/-!
# Statements

Each statement and declaration of a script. Three places are forgiving. A `var` list that is not
ended drops everything up to where a statement may end; an expression statement that is followed by
a binary operator takes the operator's operands in; and a `catch` or `finally` without its `try` is
read and dropped.
-/

set_option autoImplicit false

namespace AmdModules.Script.Parser

/-- An expression in parentheses, as the heads of most statements have it. -/
def head (g : Grammar) : Parser Node := do
  expect "("
  let inner ← allowingIn (expression g)
  expect ")"
  return inner

/-- The statement a loop or branch runs. -/
def substatement (g : Grammar) : Parser Node :=
  g.parse (.statement false)

/-- A block in braces, as a statement. -/
def blockStatement (g : Grammar) : Parser Node := do
  let start ← position
  let items ← braced g false
  node .block start items

/-- Statements in braces that are no statement themselves. -/
def bracedBody (g : Grammar) : Parser Node := do
  let start ← position
  let items ← braced g false
  node .body start items

/-- One variable with its initial value. In the head of a `for` loop the value may be missing where
`in` or `of` follows. -/
def declarator (g : Grammar) (lexical inHead : Bool) (strictConst : Bool) : Parser Node := do
  let start ← position
  let name ← g.parse (.binding lexical)
  if inHead && ((← isWord "in") || (← isWord "of")) then node .declarator start [name]
  else if ← eat "=" then
    let value ← g.parse .assignment
    node .declarator start [name, value]
  else
    match name.kind with
    | .identifier _ => node .declarator start [name]
    | _ => if strictConst then node .declarator start [name] else refuse

/-- Variables separated by commas. The list may be empty or end in a comma. -/
def declarators (g : Grammar) (lexical inHead strictConst : Bool) : Nat → Parser (List Node)
  | 0 => exhausted
  | limit + 1 => do
    if ← isMarkOrEnd ";" then return []
    else
      let first ← declarator g lexical inHead strictConst
      if ← eat "," then return first :: (← declarators g lexical inHead strictConst limit)
      else return [first]

/-- Passes over tokens up to where a statement may end, or to something that is no token. -/
def skipToSemicolon : Nat → Parser Unit
  | 0 => exhausted
  | limit + 1 => do
    if ← eatSemicolon then return ()
    else
      advance
      if (← token).kind == .bad then return () else skipToSemicolon limit

/-- A `var`, `let` or `const` list. -/
def variableList (g : Grammar) (keyword : String) (inHead : Bool) : Parser Node := do
  let start ← position
  advance
  let lexical := keyword != "var"
  let strictConst := keyword == "const" && (← isStrict)
  let allow := lexical || !inHead
  let items ← within ({ · with allowIn := allow })
    (declarators g lexical inHead strictConst g.limit)
  if inHead then node (.variableList keyword) start items
  else if ← eatSemicolon then node (.variableList keyword) start items
  else
    forgive
    discard (orElse (expression g) missing)
    skipToSemicolon g.limit
    node (.variableList keyword) start items

/-- Whether a token makes `let` in front of it start a declaration. -/
def followsLet (t : Token) : Bool :=
  match t.kind with
  | .word word => !reservedWords.contains word
  | .mark "[" | .mark "\x7b" => true
  | _ => false

/-- A `using` list behind the word, if it is one: a name has to follow on the same line. -/
def usingDeclaration (g : Grammar) (start : Nat) : Parser (Option Node) := do
  let following ← peek
  if following.onNewLine || !(← namesSomething following) then return none
  else
    advance
    let items ← declarators g false false false g.limit
    discard eatSemicolon
    return some (← node (.variableList "using") start items)

/-- The rest of a loop head behind the first semicolon: a condition and a step. -/
def loopTail (g : Grammar) : Parser (List Node) := do
  let test ←
    if ← eat ";" then pure []
    else do
      let test ← allowingIn (expression g)
      expect ";"
      pure [test]
  if ← isMark ")" then return test
  else
    let step ← allowingIn (expression g)
    return test ++ [step]

/-- The head of a loop over the values or names of something, from `of` or `in` on. -/
def loopOver (g : Grammar) (await : Bool) (left : Node) : Parser (Kind × List Node) := do
  if ← eatWord "of" then
    let right ← allowingIn (g.parse .assignment)
    return (.forOf await, [left, right])
  else
    expectWord "in"
    let right ← allowingIn (expression g)
    return (.forIn, [left, right])

/-- Whether an expression in a loop head is the word `using`, plain or awaited. -/
def isUsing (n : Node) : Bool :=
  n.kind == .identifier "using" ||
    match n.kind, n.parts with
    | .await, [operand] => operand.kind == .identifier "using"
    | _, _ => false

/-- The head of a `for` loop: its kind and parts. -/
def loopHead (g : Grammar) (await : Bool) : Parser (Kind × List Node) := do
  let t ← token
  let declares :=
    t.kind == .word "const" || t.kind == .word "var"
      || (t.kind == .word "let" && followsLet (← peek))
  if declares then
    let keyword := match t.kind with
      | .word word => word
      | _ => "var"
    let list ← variableList g keyword true
    if (← isWord "of") || (← isWord "in") then loopOver g await list
    else
      expect ";"
      return (.forLoop, list :: (← loopTail g))
  else if ← eat ";" then return (.forLoop, ← loopTail g)
  else
    let first ← within ({ · with allowIn := false }) (expression g)
    let following ← peek
    if isUsing first && !(← isWord "of")
        && (following.kind == .word "of" || following.kind == .word "in") then
      let name ← bindingIdentifier false
      let list ← node (.variableList "using") t.span.start [.mk .declarator name.span [name]]
      loopOver g await list
    else if (← isWord "of") || (← isWord "in") then
      match asPattern .assigned first with
      | some target => loopOver g await target
      | none => refuse
    else
      expect ";"
      return (.forLoop, first :: (← loopTail g))

/-- A `for` loop. -/
def forStatement (g : Grammar) : Parser Node := do
  let start ← position
  expectWord "for"
  let await ← eatWord "await"
  expect "("
  let (kind, parts) ← within ({ · with inForHead := true }) (loopHead g await)
  expect ")"
  let body ← substatement g
  let plain : Bool := match kind with
    | .forOf _ => false
    | _ => true
  if await && plain then refuse else node kind start (parts ++ [body])

/-- A `do` loop. The semicolon behind it may be missing. -/
def doStatement (g : Grammar) : Parser Node := do
  let start ← position
  expectWord "do"
  let body ← substatement g
  expectWord "while"
  let test ← head g
  discard eatSemicolon
  node .doLoop start [test, body]

/-- An `if` statement. -/
def ifStatement (g : Grammar) : Parser Node := do
  let start ← position
  expectWord "if"
  let test ← head g
  let yes ← substatement g
  if ← eatWord "else" then
    let no ← substatement g
    node .ifStatement start [test, yes, no]
  else node .ifStatement start [test, yes]

/-- The cases of a `switch`; there may be one default case. -/
def switchCases (g : Grammar) (hadDefault : Bool) : Nat → Parser (List Node)
  | 0 => exhausted
  | limit + 1 => do
    let start ← position
    let isCase ← isWord "case"
    let isDefault ← isWord "default"
    if !isCase && !isDefault then return []
    else if isDefault && hadDefault then refuse
    else
      advance
      let test ← if isCase then (do return [← allowingIn (expression g)]) else pure []
      expect ":"
      let items ← manyUntil
        (do return (← isMarkOrEnd "\x7d") || (← isWord "case") || (← isWord "default"))
        (do return [← g.parse (.statement true)]) g.limit
      let first ← node (if isCase then .switchCase else .defaultCase) start (test ++ items)
      return first :: (← switchCases g (hadDefault || isDefault) limit)

/-- A `switch` statement. -/
def switchStatement (g : Grammar) : Parser Node := do
  let start ← position
  expectWord "switch"
  let value ← head g
  expect "\x7b"
  let cases ← switchCases g false g.limit
  expect "\x7d"
  node .switchStatement start (value :: cases)

/-- A `catch` clause, if there is one. -/
def catchClause (g : Grammar) : Parser (List Node) := do
  let start ← position
  if ← eatWord "catch" then
    let name ←
      if ← eat "(" then (do
        let name ← g.parse (.binding false)
        expect ")"
        return [name])
      else pure []
    let body ← bracedBody g
    return [← node .catchClause start (name ++ [body])]
  else return []

/-- A `finally` block, if there is one. -/
def finallyBlock (g : Grammar) : Parser (List Node) := do
  if ← eatWord "finally" then return [← bracedBody g] else return []

/-- A `try` statement. Both the `catch` and the `finally` may be missing. -/
def tryStatement (g : Grammar) : Parser Node := do
  let start ← position
  expectWord "try"
  let body ← bracedBody g
  let handler ← catchClause g
  let final ← finallyBlock g
  node .tryStatement start (body :: handler ++ final)

/-- A `catch` or `finally` without its `try`: whatever can be read of it is dropped. -/
def strayHandler (g : Grammar) : Parser Node := do
  forgive
  let t ← token
  discard (orElse (catchClause g) (pure []))
  discard (orElse (finallyBlock g) (pure []))
  return .mk .expressionStatement t.span [.mk .invalid t.span []]

/-- A `break` or `continue`. -/
def jumpStatement (kind : Option String → Kind) : Parser Node := do
  let start ← position
  advance
  if ← eatSemicolon then node (kind none) start []
  else
    let label ← identifier true true
    expectSemicolon
    match label.kind with
    | .identifier name => node (kind (some name)) start []
    | _ => refuse

/-- A `return` or `throw` of an expression. -/
def returnStatement (g : Grammar) : Parser Node := do
  let start ← position
  advance
  if ← eatSemicolon then node .returnStatement start []
  else
    let value ← allowingIn (expression g)
    expectSemicolon
    node .returnStatement start [value]

/-- A `throw`; its expression starts on the same line. -/
def throwStatement (g : Grammar) : Parser Node := do
  let start ← position
  advance
  if (← token).onNewLine then refuse
  else
    let value ← allowingIn (expression g)
    expectSemicolon
    node .throwStatement start [value]

/-- A `with` or `while` statement: a head and a statement. -/
def headedStatement (g : Grammar) (kind : Kind) : Parser Node := do
  let start ← position
  advance
  let test ← head g
  let body ← substatement g
  node kind start [test, body]

/-- A declaration as a statement. -/
def declarationStatement (p : Parser Node) : Parser Node := do
  let start ← position
  let inner ← p
  node .declaration start [inner]

/-- A labelled statement behind its colon. -/
def labeledFrom (g : Grammar) (start : Nat) (label : String) : Parser Node := do
  let body ←
    if ← isWord "function" then
      declarationStatement (do functionDeclaration g false true (← position) [])
    else substatement g
  node (.labeled label) start [body]

/-- The end of an expression statement. Operators that the expression was not read with are taken up
here, and then the semicolon may be missing. -/
def expressionEnd (g : Grammar) (start : Nat) (value : Node) : Parser Node := do
  if ← eatSemicolon then node .expressionStatement start [value]
  else
    match binaryOperator? { } (← token), (← token).kind with
    | some _, .mark _ =>
      let value ← g.parse (.operators 0 value)
      node .expressionStatement start [value]
    | _, _ => refuse

/-- An expression statement, or a labelled one. -/
def expressionStatement (g : Grammar) (start : Nat) : Parser Node := do
  let value ← allowingIn (expression g)
  match value.kind with
  | .identifier name => if ← eat ":" then labeledFrom g start name else expressionEnd g start value
  | _ => expressionEnd g start value

/-- An expression statement that starts with `import`; the semicolon behind it may be missing. -/
def importExpressionStatement (g : Grammar) (start : Nat) : Parser Node := do
  let value ← expression g
  discard eatSemicolon
  node .expressionStatement start [value]

/-- A statement that starts with `await`: an `await using` list, or an expression. -/
def awaitStatement (g : Grammar) (start : Nat) : Parser Node := do
  if (← peek).kind == .word "using" then
    let s ← state
    advance
    match ← usingDeclaration g start with
    | some list => node .declaration start [list]
    | none =>
      restore s
      expressionStatement g start
  else expressionStatement g start

/-- A statement that starts with a word. -/
def wordStatement (g : Grammar) (declarations : Bool) (marks : List Node) (start : Nat)
    (word : String) : Parser Node := do
  match word with
  | "break" => jumpStatement .breakStatement
  | "continue" => jumpStatement .continueStatement
  | "debugger" =>
    advance
    expectSemicolon
    node .debugger start []
  | "do" => doStatement g
  | "for" => forStatement g
  | "function" =>
    let here ← position
    let inner ← functionDeclaration g false true here marks
    node .declaration start [inner]
  | "class" =>
    let inner ← classFrom g true start marks
    node .declaration start [inner]
  | "if" => ifStatement g
  | "return" => returnStatement g
  | "switch" => switchStatement g
  | "throw" => throwStatement g
  | "catch" => strayHandler g
  | "finally" => strayHandler g
  | "try" => tryStatement g
  | "with" => headedStatement g .withStatement
  | "while" => headedStatement g .whileLoop
  | "var" => declarationStatement (variableList g "var" false)
  | word =>
    let following ← peek
    if word == "const" && declarations then declarationStatement (variableList g "const" false)
    else if word == "let" && declarations && followsLet following then
      declarationStatement (variableList g "let" false)
    else if word == "using" && declarations then
      match ← usingDeclaration g start with
      | some list => node .declaration start [list]
      | none => expressionStatement g start
    else if word == "await" && declarations then awaitStatement g start
    else if word == "async" && following.kind == .word "function" && !following.onNewLine then
      let here ← position
      advance
      let inner ← functionDeclaration g true true here marks
      node .declaration start [inner]
    else expressionStatement g start

/-- A statement that is no import or export. -/
def plainStatement (g : Grammar) (declarations : Bool) (marks : List Node) (start : Nat) :
    Parser Node := do
  match (← token).kind with
  | .word word => wordStatement g declarations marks start word
  | .mark "\x7b" => blockStatement g
  | .mark ";" =>
    advance
    node .empty start []
  | _ => expressionStatement g start

end AmdModules.Script.Parser
