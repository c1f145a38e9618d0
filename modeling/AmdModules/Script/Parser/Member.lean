import AmdModules.Script.Parser.Pattern

/-!
# Calls, members and templates

What may follow an operand: a member behind a dot or in brackets, the arguments of a call, a
template. Decorators are such chains too, without brackets.
-/

set_option autoImplicit false

namespace AmdModules.Script.Parser

/-- Surroundings in which `in` is an operator. -/
@[inline] def allowingIn {α : Type} (p : Parser α) : Parser α :=
  within ({ · with allowIn := true }) p

/-- An expression, commas included. -/
def expression (g : Grammar) : Parser Node := do
  let start ← position
  let first ← g.parse .assignment
  if ← isMark "," then
    let others ← manyUntil (do return !(← isMark ",")) (do
      advance
      return [← g.parse .assignment]) g.limit
    node .sequence start (first :: others)
  else return first

/-- An expression, or a spread one. -/
def element (g : Grammar) : Parser Node := do
  let start ← position
  if ← eat "..." then
    let inner ← allowingIn (g.parse .assignment)
    node .spread start [inner]
  else allowingIn (g.parse .assignment)

/-- The arguments of a call, parentheses included. -/
def arguments (g : Grammar) : Parser (List Node) := do
  expect "("
  let items ← manyUntil (isMarkOrEnd ")") (do
    let item ← element g
    separator ")"
    return [item]) g.limit
  expect ")"
  return items

/-- Reads the literal part of a template that starts at the given place, and answers whether the
template ends with it. Only a tagged template may hold escapes without a meaning. -/
def chunk (tagged : Bool) (offset : Nat) (text : List Char) : Parser Bool := do
  match readChunk true false offset text with
  | some c =>
    if c.wellFormed || tagged then
      jump c.offset c.rest
      return c.closes
    else refuse
  | none => refuse

/-- The substitutions of a template, each with the literal part behind it. -/
def substitutions (g : Grammar) (tagged : Bool) : Nat → Parser (List Node)
  | 0 => exhausted
  | limit + 1 => do
    let value ← allowingIn (expression g)
    if ← isMark "\x7d" then
      let s ← state
      if ← chunk tagged s.reading.token.span.stop s.reading.rest then return [value]
      else return value :: (← substitutions g tagged limit)
    else refuse

/-- A template, from its opening backquote on. -/
def template (g : Grammar) (tagged : Bool) : Parser Node := do
  let start ← position
  let s ← state
  if ← chunk tagged s.reading.token.span.stop s.reading.rest then node .template start []
  else node .template start (← substitutions g tagged g.limit)

/-- A regular expression; the token being looked at is its opening slash. -/
def regexp : Parser Node := do
  let start ← position
  let s ← state
  match readRegexp false false (s.reading.hereOffset + 1) (s.reading.here.drop 1) with
  | some (offset, rest) =>
    let (flags, rest) := rest.span isNamePart
    jump (offset + Text.byteLength flags) rest
    node .regexp start []
  | none => refuse

/-- The name behind a dot, private ones included. -/
def memberName : Parser Node := do
  if ← isMark "#" then privateName else anyName

/-- Whether a node belongs to an optional chain. -/
def isOptional (n : Node) : Bool :=
  match n.kind with
  | .optionalMember | .optionalCall => true
  | _ => false

/-- Whether an operand is `super` or `import`, which mean nothing without what follows them. -/
def isIncomplete (n : Node) : Bool :=
  match n.kind with
  | .superclass | .name _ => true
  | _ => false

/-- The kind of a call with the given callee, and its parts. -/
def callKind (callee : Node) (arguments : List Node) : Kind × List Node :=
  match callee.kind with
  | .superclass => (.superCall, arguments)
  | .name _ => (.importCall, arguments)
  | .optionalMember | .optionalCall => (.optionalCall, callee :: arguments)
  | _ => (.call, callee :: arguments)

/-- What follows an operand, once; `none` when nothing does. -/
def subscript (g : Grammar) (calls brackets : Bool) (operand : Node) : Parser (Option Node) := do
  let start := operand.span.start
  let memberKind : Kind := if isOptional operand then .optionalMember else .member
  if ← isMark "?." then
    if isIncomplete operand then refuse
    else
      advance
      if brackets && (← isMark "[") then
        advance
        let inner ← allowingIn (expression g)
        expect "]"
        return some (← node .optionalMember start [operand, inner])
      else if ← isMark "(" then
        let args ← arguments g
        return some (← node .optionalCall start (operand :: args))
      else
        let name ← memberName
        return some (← node .optionalMember start [operand, name])
  else if brackets && (← isMark "[") then
    if operand.kind == .name "import" then refuse
    else
      advance
      let inner ← allowingIn (expression g)
      expect "]"
      return some (← node (if isOptional operand then .optionalMember else .computedMember) start
        [operand, inner])
  else if calls && (← isMark "(") then
    let args ← arguments g
    let (kind, parts) := callKind operand args
    return some (← node kind start parts)
  else if ← eat "." then
    if operand.kind == .name "import" then
      if ← eatWord "meta" then return some (← node .metaProperty start []) else refuse
    else
      let name ← memberName
      return some (← node memberKind start [operand, name])
  else if isIncomplete operand then refuse
  else if ← isMark "`" then
    let text ← template g true
    return some (← node .taggedTemplate start [operand, text])
  else return none

/-- Everything that follows an operand. -/
def subscripts (g : Grammar) (calls brackets : Bool) : Nat → Node → Parser Node
  | 0, _ => exhausted
  | limit + 1, operand => do
    match ← subscript g calls brackets operand with
    | some longer => subscripts g calls brackets limit longer
    | none => return operand

/-- Decorators, as many as there are. -/
def decorators (g : Grammar) : Parser (List Node) :=
  manyUntil (do return !(← isMark "@")) (do
    let start ← position
    advance
    if ← eat "(" then
      let inner ← expression g
      expect ")"
      return [← node .decorator start [inner]]
    else
      let name ← identifier false false
      let inner ← subscripts g true false g.limit name
      return [← node .decorator start [inner]]) g.limit

end AmdModules.Script.Parser
