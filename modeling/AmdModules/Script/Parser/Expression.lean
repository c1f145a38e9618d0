import AmdModules.Script.Parser.Class
import AmdModules.Script.Parser.Markup

/-!
# Expressions

From operands to assignments. Two places forgive an operand that is missing. Behind a prefix
operator any refusal is forgiven; in front of a binary operator it is forgiven when that operator
is what reading stopped at. The missing operand is an `invalid` node.
-/

set_option autoImplicit false

namespace AmdModules.Script.Parser

/-- A missing operand. -/
def missing : Parser Node := do
  forgive
  let here ← position
  return .mk .invalid ⟨here, here⟩ []

/-- The items between parentheses, which may turn out to be parameters. -/
def parenthesizedItems (g : Grammar) : Parser (List Node) :=
  allowingIn (arguments g)

/-- Items between parentheses that are no parameters: an expression. -/
def parenthesizedFrom (start : Nat) (items : List Node) : Parser Node := do
  if items.any fun n => n.kind == .spread then refuse
  else
    match items with
    | [] => refuse
    | [item] => node .parenthesized start [item]
    | first :: others =>
      let span : Span := ⟨first.span.start, (others.getLast?.getD first).span.stop⟩
      node .parenthesized start [.mk .sequence span (first :: others)]

/-- An expression in parentheses, an arrow function, or a call of something named `async`, whose
name has been read. -/
def parenthesized (g : Grammar) (async? : Option Node) (mayBeArrow : Bool) : Parser Node := do
  let start ← match async? with
    | some name => pure name.span.start
    | none => position
  let items ← parenthesizedItems g
  if ← isMark "=>" then
    if (← token).onNewLine || !mayBeArrow then refuse
    else
      advance
      match asParameters items with
      | some items => arrowFrom g async?.isSome start items
      | none => refuse
  else
    match async? with
    | some name => node .call start (name :: items)
    | none => parenthesizedFrom start items

/-- A name, or an arrow function whose only parameter it is. -/
def identifierOrArrow (g : Grammar) (mayBeArrow : Bool) : Parser Node := do
  let start ← position
  let c ← context
  let name ← identifier (!c.inGenerator) (!c.inAsync)
  let t ← token
  if mayBeArrow && !t.onNewLine && name.kind == .identifier "async" && (← namesSomething t) then
    if c.inForHead && t.kind == .word "of" && (← peek).kind != .mark "=>" then return name
    else
      let item ← bindingIdentifier false
      expect "=>"
      arrowFrom g true start [item]
  else if mayBeArrow && !t.onNewLine && t.kind == .mark "=>" then
    advance
    arrowFrom g false start [name]
  else return name

/-- An operand that starts with a word. -/
def primaryWord (g : Grammar) (word : String) (mayBeArrow : Bool) : Parser Node := do
  let start ← position
  match word with
  | "this" => leaf .this
  | "null" => leaf .null
  | "true" => leaf (.boolean true)
  | "false" => leaf (.boolean false)
  | "function" => functionExpression g false start
  | "class" => classFrom g false start []
  | "let" => identifierOrArrow g mayBeArrow
  | word =>
    let following ← peek
    let isAsync := word == "async" && !following.onNewLine
    if isAsync && following.kind == .word "function" then
      advance
      functionExpression g true start
    else if isAsync && mayBeArrow && following.kind == .mark "(" then
      let name ← leaf (.identifier "async")
      parenthesized g (some name) mayBeArrow
    else if ← namesSomething (← token) then identifierOrArrow g mayBeArrow
    else refuse

/-- An operand. -/
def primary (g : Grammar) : Parser Node := do
  let t ← token
  let mayBeArrow := (← context).arrowAt == some t.span.start
  match t.kind with
  | .word word => primaryWord g word mayBeArrow
  | .string value => leaf (.string value)
  | .number spelling => leaf (.number spelling)
  | .mark "[" => arrayLiteral g
  | .mark "\x7b" => objectLiteral g
  | .mark "(" => parenthesized g none mayBeArrow
  | .mark "`" => template g false
  | .mark "/" => regexp
  | .mark "/=" => regexp
  | .mark "#" => privateName
  | .mark "<" => if (← context).markup then markupOperand g else refuse
  | .mark "@" =>
    let marks ← decorators g
    if ← isWord "class" then classFrom g false t.span.start marks else refuse
  | _ => refuse

/-- Whether an operand is an arrow function, which nothing but a comma or the end of the expression
may follow. -/
def isArrow (n : Node) : Bool :=
  match n.kind with
  | .arrow _ => true
  | _ => false

/-- Whether what is constructed is part of an optional chain, which `new` does not allow. -/
def constructsOptional (n : Node) : Bool :=
  isOptional n ||
    match n.kind, n.parts with
    | .member, operand :: _ | .computedMember, operand :: _ => isOptional operand
    | _, _ => false

/-- What may stand behind `new`, and every operand with its members but without calls. -/
def constructed (g : Grammar) : Parser Node := do
  let start ← position
  if ← eatWord "new" then
    if ← eat "." then
      if ← eatWord "target" then
        subscripts g false true g.limit (← node .metaProperty start [])
      else refuse
    else
      let callee ← g.parse .constructed
      if isArrow callee then return callee
      else if constructsOptional callee then refuse
      else if ← isMark "(" then
        let items ← arguments g
        subscripts g false true g.limit (← node .new start (callee :: items))
      else node .new start [callee]
  else if ← isWord "super" then subscripts g false true g.limit (← leaf .superclass)
  else if ← isWord "import" then subscripts g false true g.limit (← leaf (.name "import"))
  else
    let operand ← primary g
    if isArrow operand then return operand else subscripts g false true g.limit operand

/-- An operand with its members and calls. -/
def leftHandSide (g : Grammar) : Parser Node := do
  let start ← position
  if ← isWord "super" then subscripts g true true g.limit (← leaf .superclass)
  else if ← isWord "import" then subscripts g true true g.limit (← leaf (.name "import"))
  else
    let callee ← constructed g
    if isArrow callee then return callee
    else if ← isMark "(" then
      let items ← arguments g
      let (kind, parts) := callKind callee items
      subscripts g true true g.limit (← node kind start parts)
    else return callee

/-- An `await` expression. In front of a closing bracket, a comma or the end of a statement the word
is a name, except in modules and `async` functions. -/
def awaitExpression (g : Grammar) : Parser Node := do
  let start ← position
  advance
  let t ← token
  let c ← context
  let nothingFollows :=
    t.kind == .mark ")" || t.kind == .mark "]" || t.kind == .mark "," || t.kind == .mark ";"
      || t.kind == .ending
  if t.kind == .mark "*" then refuse
  else if nothingFollows && !c.inAsync then
    if (← state).inModule then refuse else node (.identifier "await") start []
  else
    let operand ← g.parse .unary
    node .await start [operand]

/-- Prefix operators spelled as marks or words. -/
def prefixOperator? (t : Token) : Option String :=
  match t.kind with
  | .mark "+" => some "+"
  | .mark "-" => some "-"
  | .mark "~" => some "~"
  | .mark "!" => some "!"
  | .word "delete" => some "delete"
  | .word "void" => some "void"
  | .word "typeof" => some "typeof"
  | _ => none

/-- The operators that count up or down. -/
def updateOperator? (t : Token) : Option String :=
  match t.kind with
  | .mark "++" => some "++"
  | .mark "--" => some "--"
  | _ => none

/-- An operand with its prefix and postfix operators. -/
def unary (g : Grammar) : Parser Node := do
  let t ← token
  let start := t.span.start
  match updateOperator? t, prefixOperator? t with
  | some operator, _ =>
    advance
    let operand ← g.parse .unary
    return .mk (.update operator true) ⟨start, operand.span.stop⟩ [operand]
  | none, some operator =>
    advance
    let operand ← orElse (g.parse .unary) missing
    return .mk (.unary operator) ⟨start, operand.span.stop⟩ [operand]
  | none, none =>
    if t.kind == .word "await" then awaitExpression g
    else
      let operand ← leftHandSide g
      let t ← token
      if isArrow operand || t.onNewLine then return operand
      else
        match updateOperator? t with
        | some operator =>
          advance
          node (.update operator false) start [operand]
        | none => return operand

/-- The binary operators and how tightly they bind. -/
def precedence? (text : String) : Option Nat :=
  match text with
  | "??" | "||" => some 1
  | "&&" => some 2
  | "|" => some 3
  | "^" => some 4
  | "&" => some 5
  | "==" | "!=" | "===" | "!==" => some 6
  | "<" | ">" | "<=" | ">=" => some 7
  | "<<" | ">>" | ">>>" => some 8
  | "+" | "-" => some 9
  | "*" | "/" | "%" => some 10
  | "**" => some 11
  | _ => none

/-- The binary operator a token is, and how tightly it binds. -/
def binaryOperator? (c : Context) (t : Token) : Option (String × Nat) :=
  match t.kind with
  | .mark text => (precedence? text).map fun n => (text, n)
  | .word "instanceof" => some ("instanceof", 7)
  | .word "in" => if c.allowIn then some ("in", 7) else none
  | _ => none

/-- The operators that bind tighter than `floor`, behind an operand. -/
def operators (g : Grammar) (floor : Nat) (left : Node) : Parser Node := do
  match binaryOperator? (← context) (← token) with
  | none => return left
  | some (operator, level) =>
    if level ≤ floor then return left
    else
      advance
      let isPower := operator == "**"
      let afterPrefix :=
        match left.kind with
        | .unary _ | .await => true
        | _ => false
      if isPower && afterPrefix then refuse
      else
        let operand ← g.parse .unary
        let right ← g.parse (.operators (if isPower then level - 1 else level) operand)
        g.parse (.operators floor
          (.mk (.binary operator) ⟨left.span.start, right.span.stop⟩ [left, right]))

/-- An expression of binary operators. -/
def binary (g : Grammar) : Parser Node := do
  let left ← orElse (g.parse .unary) (do
    match binaryOperator? (← context) (← token) with
    | some _ => missing
    | none => refuse)
  if isArrow left then return left else g.parse (.operators 0 left)

/-- A conditional expression. -/
def conditional (g : Grammar) : Parser Node := do
  let start ← position
  let test ← binary g
  if isArrow test then return test
  else if ← eat "?" then
    let yes ← allowingIn (g.parse .assignment)
    expect ":"
    let no ← g.parse .assignment
    node .conditional start [test, yes, no]
  else return test

/-- A `yield` expression. -/
def yieldExpression (g : Grammar) : Parser Node := do
  let start ← position
  advance
  if (← context).inParameters then refuse
  else
    let t ← token
    let startsOperand : Bool :=
      match t.kind with
      | .word word =>
        !reservedWords.contains word
          || ["class", "delete", "false", "function", "import", "new", "null", "super", "this",
              "true", "typeof", "void"].contains word
      | .string _ | .number _ | .bad => true
      | .mark text =>
        ["(", "[", "\x7b", "`", "/", "/=", "!", "~", "+", "-", "++", "--", "#", "@", "*"].contains
          text
      | .ending => false
    if t.onNewLine || !startsOperand then node (.yield false) start []
    else
      let delegates ← eat "*"
      let operand ← g.parse .assignment
      node (.yield delegates) start [operand]

/-- The operators that assign. -/
def assignmentOperator? (t : Token) : Option String :=
  match t.kind with
  | .mark text =>
    if ["=", "+=", "-=", "*=", "/=", "%=", "**=", "<<=", ">>=", ">>>=", "&=", "|=", "^=", "&&=",
        "||=", "??="].contains text then some text else none
  | _ => none

/-- The left side of an assignment with the given operator. -/
def assignedTo (operator : String) (left : Node) : Option Node :=
  if operator == "=" then do
    let target ← asPattern .assigned left
    if target.kind.isTarget then some target else none
  else if left.kind.isSimpleTarget then some left
  else none

/-- An expression without commas. -/
def assignment (g : Grammar) : Parser Node := do
  let t ← token
  let start := t.span.start
  if (← context).inGenerator && t.kind == .word "yield" then yieldExpression g
  else
    let mayBeArrow : Bool :=
      match t.kind with
      | .word word => !reservedWords.contains word && word != "let" && word != "await"
      | .mark "(" => true
      | _ => false
    let left ← within ({ · with arrowAt := if mayBeArrow then some start else none })
      (conditional g)
    match left.kind with
    | .arrow _ | .conditional | .binary _ | .unary _ | .update _ _ => return left
    | _ =>
      match assignmentOperator? (← token) with
      | none => return left
      | some operator =>
        match assignedTo operator left with
        | none => refuse
        | some target =>
          advance
          let right ← g.parse .assignment
          node (.assignment operator) start [target, right]

end AmdModules.Script.Parser
