import AmdModules.Json.Number
import AmdModules.Json.Text
import AmdModules.Text.Spelled

/-!
# JSON values

Reading lists, objects and whole values. Lists and objects come as loops over their items, so that a
caller who knows what it wants can read the items into its own type at once; `value` reads anything,
and `skipValue` only makes sure that there is a value.

Reading a value goes at most 127 lists and objects deep; skipping one has no such limit.
-/

set_option autoImplicit false

namespace AmdModules

/-- A JSON value. The members of an object stand in the order of the text, repeated keys
included. -/
inductive Json where
  | null
  | bool (value : Bool)
  | number (value : Json.Number)
  | string (value : String)
  | list (items : List Json)
  | object (members : List (String × Json))

namespace Json.Reader

variable {α σ : Type}

/-- How deep lists and objects may stand in each other, and one more. -/
def depthLimit : Nat := 128

/-- Reads the items of a list up to its closing bracket, which is not passed over. -/
def items (item : Reader α) : Nat → Bool → Reader (List α)
  | 0, _ => return []
  | fuel + 1, first => do
    match ← peekToken with
    | none => failHere .endInList
    | some ']' => return []
    | some c =>
      if !first && c != ',' then failAt .expectedListEnd
      else
        if !first then
          advance
          match ← peekToken with
          | some ']' => failAt .trailingComma
          | some _ => pure ()
          | none => failHere .endInValue
        let a ← item
        return a :: (← items item fuel false)

/-- Passes over the end of a list. -/
def endOfList : Reader Unit := do
  match ← peekToken with
  | some ']' => advance
  | some ',' =>
    advance
    match ← peekToken with
    | some ']' => failAt .trailingComma
    | _ => failAt .trailingCharacters
  | some _ => failAt .trailingCharacters
  | none => failHere .endInList

/-- Reads a key, if the object has another. -/
def key? (first : Bool) : Reader (Option String) := do
  match ← peekToken with
  | none => failHere .endInObject
  | some '\x7d' => return none
  | some c =>
    if first then
      if c = '\x22' then return some (← text) else failAt .keyNotString
    else if c = ',' then
      advance
      match ← peekToken with
      | some '\x22' => return some (← text)
      | some '\x7d' => failAt .trailingComma
      | some _ => failAt .keyNotString
      | none => failHere .endInValue
    else failAt .expectedObjectEnd

/-- Passes over the colon behind a key. -/
def colon : Reader Unit := do
  match ← peekToken with
  | some ':' => advance
  | some _ => failAt .expectedColon
  | none => failHere .endInObject

/-- Reads the members of an object one after the other into `state`. `member` gets each key before
its colon is read. -/
def members (member : σ → String → Reader σ) : Nat → Bool → σ → Reader σ
  | 0, _, state => return state
  | fuel + 1, first, state => do
    match ← key? first with
    | none => return state
    | some key => members member fuel false (← member state key)

/-- Passes over the end of an object. -/
def endOfObject : Reader Unit := do
  match ← peekToken with
  | some '\x7d' => advance
  | some ',' => failAt .trailingComma
  | some _ => failAt .trailingCharacters
  | none => failHere .endInObject

/-- Reads a list; its opening bracket is the next character. `body` reads up to the closing one. -/
def listOf (depth : Nat) (body : Nat → Reader α) : Reader α :=
  if depth ≤ 1 then failAt .tooDeep
  else do
    advance
    closedBy endOfList (body (← remaining))

/-- Reads an object; its opening brace is the next character. -/
def objectOf (depth : Nat) (initial : σ) (member : σ → String → Reader σ) : Reader σ :=
  if depth ≤ 1 then failAt .tooDeep
  else do
    advance
    closedBy endOfObject (do members member ((← remaining) + 1) true initial)

/-- Reads any value, at most `depth - 1` lists and objects deep. -/
def value : Nat → Reader Json
  | 0 => failAt .tooDeep
  | depth + 1 => located do
    match ← peekValue with
    | 'n' => do letters "null".toList; return .null
    | 't' => do letters "true".toList; return .bool true
    | 'f' => do letters "false".toList; return .bool false
    | '-' => do advance; return .number (← number false)
    | '\x22' => return .string (← text)
    | '[' =>
      return .list (← listOf (depth + 1) fun fuel => items (value depth) (fuel + 1) true)
    | '\x7b' =>
      let found ← objectOf (depth + 1) [] fun found key => do
        colon
        return (key, ← value depth) :: found
      return .object found.reverse
    | c =>
      if Text.isDigit c then return .number (← number true) else failAt .expectedValue

/-- Refuses a value because something else was wanted. A string, number or word is read first; a
list or object is not. -/
def mismatch (wanted : String) : Reader α := do
  let found ← do
    match ← peekValue with
    | 'n' => do letters "null".toList; pure "null"
    | 't' => do letters "true".toList; pure "boolean `true`"
    | 'f' => do letters "false".toList; pure "boolean `false`"
    | '-' => do
      advance
      numberText <$> number false
    | '\x22' => do
      let found ← text
      pure ("string " ++ Text.spell found)
    | '[' => pure "sequence"
    | '\x7b' => pure "map"
    | c =>
      if Text.isDigit c then numberText <$> number true else failAt .expectedValue
  unwanted ("invalid type: " ++ found ++ ", expected " ++ wanted)
where
  numberText : Number → String
    | .integer n => "integer `" ++ toString n ++ "`"
    | .float f => "floating point `" ++ Decimal.floatText f ++ "`"

/-- Reads a truth value. -/
def bool : Reader Bool := located do
  match ← peekValue with
  | 't' => do letters "true".toList; return true
  | 'f' => do letters "false".toList; return false
  | _ => mismatch "a boolean"

/-- Reads a value that may be `null`. -/
def optional (p : Reader α) : Reader (Option α) := do
  match ← peekToken with
  | some 'n' =>
    letters "null".toList
    return none
  | _ => return some (← p)

mutual

/-- Passes over a value. -/
def skipValue : Nat → Reader Unit
  | 0 => return ()
  | fuel + 1 => do
    match ← peekValue with
    | 'n' => letters "null".toList
    | 't' => letters "true".toList
    | 'f' => letters "false".toList
    | '-' => do advance; skipNumber
    | '\x22' => skipText
    | '[' => do
      advance
      match ← peekToken with
      | some ']' => advance
      | some _ => skipItems fuel
      | none => failHere .endInList
    | '\x7b' => do
      advance
      match ← peekToken with
      | some '\x7d' => advance
      | some _ => skipMembers fuel
      | none => failHere .endInObject
    | c => if Text.isDigit c then skipNumber else failAt .expectedValue

/-- Passes over the items of a list and its end. -/
def skipItems : Nat → Reader Unit
  | 0 => return ()
  | fuel + 1 => do
    skipValue fuel
    match ← peekToken with
    | some ',' => do advance; skipItems fuel
    | some ']' => advance
    | some _ => failAt .expectedListEnd
    | none => failHere .endInList

/-- Passes over the members of an object and its end. -/
def skipMembers : Nat → Reader Unit
  | 0 => return ()
  | fuel + 1 => do
    match ← peekToken with
    | some '\x22' => skipText
    | some _ => failAt .keyNotString
    | none => failHere .endInObject
    colon
    skipValue fuel
    match ← peekToken with
    | some ',' => do advance; skipMembers fuel
    | some '\x7d' => advance
    | some _ => failAt .expectedObjectEnd
    | none => failHere .endInObject

end

end Json.Reader

end AmdModules
