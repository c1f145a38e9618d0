import AmdModules.Text.Bytes

/-!
# Reading JSON

A reader takes what it wants from the front of a text and says exactly where and why it stopped.
There are two kinds of faults. A text that is no JSON is refused at a place, right when it is met. A
value that is well formed but not the one wanted is noticed only after it has been read; its fault
has no place of its own and gets that of the reader once the construct around it has been left.
-/

set_option autoImplicit false

namespace AmdModules.Json

/-- What is left of a text, and where that begins: lines count from one, columns are bytes. -/
structure Cursor where
  rest : List Char
  line : Nat := 1
  column : Nat := 0
deriving DecidableEq, Repr

/-- Why a text was refused. -/
inductive Cause where
  | endInList
  | endInObject
  | endInString
  | endInValue
  | expectedColon
  | expectedListEnd
  | expectedObjectEnd
  | expectedWord
  | expectedValue
  | invalidEscape
  | invalidNumber
  | numberOutOfRange
  | controlCharacter
  | keyNotString
  | loneSurrogate
  | trailingComma
  | trailingCharacters
  | unfinishedPair
  | tooDeep
  /-- A value that is not the one wanted. -/
  | unwanted (message : String)
deriving DecidableEq, Repr

/-- What is said about the cause. -/
def Cause.message : Cause → String
  | .endInList => "EOF while parsing a list"
  | .endInObject => "EOF while parsing an object"
  | .endInString => "EOF while parsing a string"
  | .endInValue => "EOF while parsing a value"
  | .expectedColon => "expected `:`"
  | .expectedListEnd => "expected `,` or `]`"
  | .expectedObjectEnd => "expected `,` or `\x7d`"
  | .expectedWord => "expected ident"
  | .expectedValue => "expected value"
  | .invalidEscape => "invalid escape"
  | .invalidNumber => "invalid number"
  | .numberOutOfRange => "number out of range"
  | .controlCharacter => "control character (\\u0000-\\u001F) found while parsing a string"
  | .keyNotString => "key must be a string"
  | .loneSurrogate => "lone leading surrogate in hex escape"
  | .trailingComma => "trailing comma"
  | .trailingCharacters => "trailing characters"
  | .unfinishedPair => "unexpected end of hex escape"
  | .tooDeep => "recursion limit exceeded"
  | .unwanted message => message

/-- A refused text, with the line and column of the fault where it has one. -/
structure Fault where
  cause : Cause
  place : Option (Nat × Nat)
deriving DecidableEq, Repr

/-- What is said about the fault. -/
def Fault.message (f : Fault) : String :=
  f.cause.message ++
    match f.place with
    | some (line, column) => " at line " ++ toString line ++ " column " ++ toString column
    | none => ""

namespace Cursor

/-- The cursor behind its first character. -/
def next (s : Cursor) : Cursor :=
  match s.rest with
  | [] => s
  | c :: cs => if c = '\n' then ⟨cs, s.line + 1, 0⟩ else ⟨cs, s.line, s.column + c.utf8Size⟩

/-- The line and column `bytes` further on, or at the end of the text. -/
def placeBehind (line column : Nat) : Nat → List Char → Nat × Nat
  | _, [] => (line, column)
  | bytes, c :: cs =>
    if bytes < c.utf8Size then (line, column + bytes)
    else if c = '\n' then placeBehind (line + 1) 0 (bytes - 1) cs
    else placeBehind line (column + c.utf8Size) (bytes - c.utf8Size) cs

/-- A fault at the cursor. -/
def faultHere (s : Cursor) (cause : Cause) : Fault :=
  ⟨cause, some (s.line, s.column)⟩

/-- A fault some bytes behind the cursor. -/
def faultBehind (s : Cursor) (bytes : Nat) (cause : Cause) : Fault :=
  ⟨cause, some (placeBehind s.line s.column bytes s.rest)⟩

end Cursor

/-- Reads a value from the front of a text. The cursor moves on even when reading fails. -/
def Reader (α : Type) : Type :=
  Cursor → Except Fault α × Cursor

namespace Reader

variable {α β : Type}

instance : Monad Reader where
  pure a := fun s => (.ok a, s)
  bind p f := fun s =>
    match p s with
    | (.ok a, s) => f a s
    | (.error e, s) => (.error e, s)

/-- Refuses the text at the cursor. -/
def failHere (cause : Cause) : Reader α := fun s => (.error (s.faultHere cause), s)

/-- Refuses the text because of the byte at the cursor, which is counted in. -/
def failAt (cause : Cause) : Reader α := fun s => (.error (s.faultBehind 1 cause), s)

/-- Refuses a value that has been read. -/
def unwanted (message : String) : Reader α := fun s => (.error ⟨.unwanted message, none⟩, s)

/-- The next character, which is not passed over. -/
def peek : Reader (Option Char) := fun s => (.ok s.rest.head?, s)

/-- Passes over a character. -/
def advance : Reader Unit := fun s => (.ok (), s.next)

/-- How many characters are left; a bound for repetitions. -/
def remaining : Reader Nat := fun s => (.ok s.rest.length, s)

/-- Passes over blank space. -/
def skipBlankIn (line column : Nat) : List Char → Cursor
  | [] => ⟨[], line, column⟩
  | c :: cs =>
    if c = '\n' then skipBlankIn (line + 1) 0 cs
    else if c = ' ' || c = '\t' || c = '\r' then skipBlankIn line (column + 1) cs
    else ⟨c :: cs, line, column⟩

/-- The next character behind blank space. -/
def peekToken : Reader (Option Char) := fun s =>
  let s := skipBlankIn s.line s.column s.rest
  (.ok s.rest.head?, s)

/-- The first character of a value, which has to be there. -/
def peekValue : Reader Char := do
  match ← peekToken with
  | some c => return c
  | none => failHere .endInValue

/-- Reads the body of a construct and then its end. The end is looked for even when the body was
refused, but then the fault of the body counts. -/
def closedBy (finish : Reader Unit) (body : Reader α) : Reader α := fun s =>
  match body s with
  | (.ok a, s) =>
    match finish s with
    | (.ok (), s) => (.ok a, s)
    | (.error e, s) => (.error e, s)
  | (.error e, s) => (.error e, (finish s).2)

/-- Places a fault that has no place where the cursor stands now. -/
def located (p : Reader α) : Reader α := fun s =>
  match p s with
  | (.error ⟨cause, none⟩, s) => (.error (s.faultHere cause), s)
  | outcome => outcome

/-- Passes over the given letters. -/
def letters : List Char → Reader Unit
  | [] => return ()
  | expected :: others => do
    match ← peek with
    | none => failHere .endInValue
    | some c =>
      if c = expected then
        advance
        letters others
      else failAt .expectedWord

/-- Reads all of a text. -/
def run (p : Reader α) (text : List Char) : Except Fault α :=
  (do
    let a ← p
    match ← peekToken with
    | some _ => failAt .trailingCharacters
    | none => return a : Reader α) { rest := text } |>.1

end Reader

end AmdModules.Json
