import AmdModules.Script.Node
import AmdModules.Script.Token

/-!
# The parser's state and steps

A parser looks at one token at a time. Its state survives a refusal: the grammar forgives a missing
operand in a few places and goes on from where reading stopped, so a refused parse still says where
that was.

The grammar is recursive in many ways at once. Productions are therefore written against a
`Grammar`, a table that parses any `Goal`, and the table itself is built by unrolling the
productions a given number of times (`Script.Program`). A production that runs out of unrollings is
`exhausted`, which no forgiving place catches.
-/

set_option autoImplicit false

namespace AmdModules.Script

/-- Where the parser stands. -/
structure State where
  /-- The token being looked at, with the text around it. -/
  reading : Reading
  /-- Where the token before it ended. -/
  lastEnd : Nat
  /-- Whether an import or export has been met. -/
  inModule : Bool
deriving Inhabited

/-- The state at a place of the text: the token behind it is looked at. -/
def State.jump (s : State) (offset : Nat) (text : List Char) : State :=
  { s with
    reading := readToken false s.reading.comments offset text
    lastEnd := offset }

/-- The state one token later. -/
def State.next (s : State) : State :=
  s.jump s.reading.token.span.stop s.reading.rest

/-- What the grammar around a production allows. -/
structure Context where
  /-- Strict code: more words are reserved. -/
  strict : Bool := false
  /-- Inside an `async` function. -/
  inAsync : Bool := false
  /-- Inside a generator. -/
  inGenerator : Bool := false
  /-- Inside a static block of a class. -/
  inStaticBlock : Bool := false
  /-- Inside the parameters of a function. -/
  inParameters : Bool := false
  /-- Whether `in` is an operator; not so in the head of a `for` loop. -/
  allowIn : Bool := true
  /-- Inside the head of a `for` loop. -/
  inForHead : Bool := false
  /-- Where an arrow function may start. -/
  arrowAt : Option Nat := none
  /-- Whether imports and exports may stand here. -/
  topLevel : Bool := false
  /-- Whether an operand may be a markup element. -/
  markup : Bool := false
  /-- Whether something missing or stray is forgiven. -/
  forgiving : Bool := true

/-- How a parser ends. -/
inductive Outcome (α : Type) where
  /-- It read a value. -/
  | done (value : α) (state : State)
  /-- The text is not in the grammar. -/
  | refused (state : State)
  /-- The grammar was not unrolled far enough. -/
  | exhausted

/-- A parser of values of type `α`. -/
def Parser (α : Type) : Type :=
  Context → State → Outcome α

/-- What the recursive part of the grammar parses. -/
inductive Goal where
  /-- A statement; `declarations` says whether `let` and `const` may declare here. -/
  | statement (declarations : Bool)
  /-- An expression without commas. -/
  | assignment
  /-- An operand with its prefix and postfix operators. -/
  | unary
  /-- The binary operators that bind tighter than `floor`, behind the operand `left`. -/
  | operators (floor : Nat) (left : Node)
  /-- What may stand behind `new`. -/
  | constructed
  /-- What may stand behind `extends`: an expression with its members and calls. -/
  | leftHandSide
  /-- A name or pattern that is bound; `lexical` forbids the name `let`. -/
  | binding (lexical : Bool)

/-- The grammar, unrolled some number of times. `limit` also bounds every repetition. -/
structure Grammar where
  limit : Nat
  parse : Goal → Parser Node

namespace Parser

variable {α β : Type}

/-- Reads nothing. -/
@[inline] def done (a : α) : Parser α := fun _ s => .done a s

/-- One parser after the other. -/
@[inline] def andThen (p : Parser α) (f : α → Parser β) : Parser β := fun c s =>
  match p c s with
  | .done a s => f a c s
  | .refused s => .refused s
  | .exhausted => .exhausted

instance : Monad Parser where
  pure := done
  bind := andThen

/-- The grammar was not unrolled far enough. -/
def exhausted : Parser α := fun _ _ => .exhausted

/-- What the surroundings allow. -/
@[inline] def context : Parser Context := fun c s => .done c s

/-- The state. -/
@[inline] def state : Parser State := fun _ s => .done s s

/-- Runs a parser in changed surroundings. -/
@[inline] def within (change : Context → Context) (p : Parser α) : Parser α :=
  fun c s => p (change c) s

/-- Goes on with `handler` where `p` was refused. -/
@[inline] def orElse (p handler : Parser α) : Parser α := fun c s =>
  match p c s with
  | .refused s => handler c s
  | outcome => outcome

/-- The token being looked at. -/
@[inline] def token : Parser Token := fun _ s => .done s.reading.token s

/-- The token behind the one being looked at. -/
def peek : Parser Token := fun _ s => .done s.next.reading.token s

/-- Where the token being looked at starts. -/
@[inline] def position : Parser Nat := fun _ s => .done s.reading.token.span.start s

/-- Moves to the next token. -/
def advance : Parser Unit := fun _ s => .done () s.next

/-- Goes on at another place of the text. -/
def jump (offset : Nat) (text : List Char) : Parser Unit := fun _ s => .done () (s.jump offset text)

/-- Goes back to an earlier state. -/
def restore (s : State) : Parser Unit := fun _ _ => .done () s

/-- The text is not in the grammar. What is no token at all is passed over first. -/
def refuse : Parser α := fun _ s =>
  .refused (if s.reading.token.kind = .bad then s.next else s)

/-- Goes on where something missing or stray is forgiven. -/
def forgive : Parser Unit := fun c s => if c.forgiving then .done () s else .refused s

/-- Imports and exports make the text a module, and module code is strict. -/
def enterModule : Parser Unit := fun _ s => .done () { s with inModule := true }

/-- Whether the token is the given mark. -/
@[inline] def isMark (text : String) : Parser Bool := fun _ s =>
  .done (s.reading.token.kind == .mark text) s

/-- Whether the token is the given word. -/
@[inline] def isWord (name : String) : Parser Bool := fun _ s =>
  .done (s.reading.token.kind == .word name) s

/-- Whether the text has ended. -/
@[inline] def atEnd : Parser Bool := fun _ s => .done (s.reading.token.kind == .ending) s

/-- Whether the token is the given mark or the text has ended. -/
@[inline] def isMarkOrEnd (text : String) : Parser Bool := fun _ s =>
  .done (s.reading.token.kind == .mark text || s.reading.token.kind == .ending) s

/-- Passes over a mark if it is there. -/
def eat (text : String) : Parser Bool := do
  if ← isMark text then
    advance
    return true
  else return false

/-- Passes over a word if it is there. -/
def eatWord (name : String) : Parser Bool := do
  if ← isWord name then
    advance
    return true
  else return false

/-- Passes over a mark that has to be there. -/
def expect (text : String) : Parser Unit := do
  if ← eat text then return () else refuse

/-- Passes over a word that has to be there. -/
def expectWord (name : String) : Parser Unit := do
  if ← eatWord name then return () else refuse

/-- Whether a statement may end here: at a semicolon, a closing brace, the end of the text, or when
the token stands on a new line. -/
def atSemicolon : Parser Bool := do
  let t ← token
  return t.kind == .mark ";" || t.kind == .mark "\x7d" || t.kind == .ending || t.onNewLine

/-- Ends a statement if it may end here, and passes over the semicolon if one is written. -/
def eatSemicolon : Parser Bool := do
  if ← atSemicolon then
    discard (eat ";")
    return true
  else return false

/-- Ends a statement that has to end here. -/
def expectSemicolon : Parser Unit := do
  if ← eatSemicolon then return () else refuse

/-- Repeats `item` until `stop` holds. -/
def manyUntil (stop : Parser Bool) (item : Parser (List α)) : Nat → Parser (List α)
  | 0 => exhausted
  | limit + 1 => do
    if ← stop then return []
    else
      let first ← item
      let others ← manyUntil stop item limit
      return first ++ others

/-- A node from `start` to the end of the last token read. -/
@[inline] def node (kind : Kind) (start : Nat) (parts : List Node) : Parser Node := fun _ s =>
  .done (.mk kind ⟨start, s.lastEnd⟩ parts) s

/-- A node for the token being looked at, which is read. -/
def leaf (kind : Kind) : Parser Node := do
  let t ← token
  advance
  return .mk kind t.span []

/-- Whether strict code or a module surrounds this place. -/
def isStrict : Parser Bool := fun c s => .done (c.strict || s.inModule) s

/-- Whether a word may not name anything in the given surroundings. -/
def reserves (c : Context) (strict : Bool) (name : String) : Bool :=
  reservedWords.contains name || name == "enum"
    || (name == "let" && strict)
    || (name == "await" && (c.inAsync || c.inStaticBlock || strict))
    || (name == "yield" && (c.inGenerator || strict))
    || (strict
      && ["implements", "interface", "package", "private", "protected", "public"].contains name)

/-- Whether a token is a word that may name something here. -/
def namesSomething (t : Token) : Parser Bool := fun c s =>
  match t.kind with
  | .word name => .done (!reserves c (c.strict || s.inModule) name) s
  | _ => .done false s

/-- Reads a name. `yield` and `await` are names only where they are allowed to be. -/
def identifier (yieldAllowed awaitAllowed : Bool) : Parser Node := do
  let t ← token
  match t.kind with
  | .word name =>
    advance
    let c ← context
    let inModule := (← state).inModule
    let allowed :=
      if name == "await" then
        !c.inStaticBlock && !inModule && !c.inAsync && awaitAllowed
      else if name == "yield" then yieldAllowed
      else !reservedWords.contains name
    if allowed then return .mk (.identifier name) t.span [] else refuse
  | _ => refuse

/-- Reads a name that is bound. -/
def bindingIdentifier (lexical : Bool) : Parser Node := do
  if lexical && (← isWord "let") then refuse
  else
    let name ← identifier true true
    let c ← context
    if (c.inAsync || c.inStaticBlock) && name.kind == .identifier "await" then refuse
    else if c.inGenerator && name.kind == .identifier "yield" then refuse
    else return name

/-- Reads a name that is bound, if there is one. -/
def optionalBindingIdentifier (lexical : Bool) : Parser (List Node) := do
  if ← namesSomething (← token) then return [← bindingIdentifier lexical] else return []

/-- Reads any word as a name, reserved or not. -/
def anyName : Parser Node := do
  match (← token).kind with
  | .word name => leaf (.name name)
  | _ => refuse

/-- Reads a name behind a number sign. -/
def privateName : Parser Node := do
  let start ← position
  let stop := (← token).span.stop
  expect "#"
  let t ← token
  match t.kind with
  | .word name =>
    if t.span.start == stop then
      advance
      node (.privateName name) start []
    else refuse
  | _ => refuse

end Parser

end AmdModules.Script
