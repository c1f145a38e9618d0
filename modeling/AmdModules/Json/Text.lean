import AmdModules.Json.Reader
import AmdModules.Text.Digits

/-!
# Strings in JSON

`readText` decodes a string, `skipText` only finds its end, and `writeText` spells one. Writing
escapes quotes, backslashes and control characters and nothing else.
-/

set_option autoImplicit false

namespace AmdModules.Json

/-- The number of a hexadecimal escape, behind its letter. Four bytes are taken before they are
looked at. -/
def hexEscape (s : Cursor) : Except Fault Nat :=
  let digits := s.rest.take 4
  match Text.hexNumber? digits with
  | some n =>
    if digits.length = 4 then .ok n
    else .error (s.faultBehind (Text.byteLength s.rest) .endInString)
  | none =>
    if Text.byteLength s.rest < 4 then
      .error (s.faultBehind (Text.byteLength s.rest) .endInString)
    else .error (s.faultBehind 4 .invalidEscape)

/-- The cursor `count` characters further on. -/
def Cursor.skip : Nat → Cursor → Cursor
  | 0, s => s
  | count + 1, s => skip count s.next

/-- The second half of a surrogate pair, behind the first. -/
def secondHalf (first : Nat) (s : Cursor) : Except Fault Nat :=
  match s.rest with
  | [] => .error (s.faultHere .endInString)
  | '\\' :: [] => .error (s.next.faultHere .endInString)
  | '\\' :: 'u' :: _ =>
    match hexEscape (s.skip 2) with
    | .error e => .error e
    | .ok second =>
      if 0xDC00 ≤ second && second ≤ 0xDFFF then
        .ok ((first - 0xD800) * 0x400 + (second - 0xDC00) + 0x10000)
      else .error ((s.skip 6).faultHere .loneSurrogate)
  | '\\' :: _ => .error (s.next.faultBehind 1 .unfinishedPair)
  | _ => .error (s.faultBehind 1 .unfinishedPair)

/-- The character that an escape of one letter stands for. -/
def letterEscape? : Char → Option Char
  | '\x22' => some '\x22'
  | '\\' => some '\\'
  | '/' => some '/'
  | 'b' => some '\x08'
  | 'f' => some '\x0c'
  | 'n' => some '\n'
  | 'r' => some '\r'
  | 't' => some '\t'
  | _ => none

/-- What follows a backslash: the character it stands for and how many characters spell it. -/
def readEscape (s : Cursor) : Except Fault (Char × Nat) :=
  match s.rest with
  | [] => .error (s.faultHere .endInString)
  | 'u' :: _ =>
    match hexEscape s.next with
    | .error e => .error e
    | .ok n =>
      if 0xDC00 ≤ n && n ≤ 0xDFFF then .error ((s.skip 5).faultHere .loneSurrogate)
      else if 0xD800 ≤ n && n ≤ 0xDBFF then
        (secondHalf n (s.skip 5)).map fun n => (Char.ofNat n, 11)
      else .ok (Char.ofNat n, 5)
  | c :: _ =>
    match letterEscape? c with
    | some c => .ok (c, 1)
    | none => .error (s.faultBehind 1 .invalidEscape)

/-- Reads a string behind its opening quote. `value` holds what has been read, last character first;
`owed` characters still belong to the escape that was just decoded. -/
def readChars (value : List Char) (owed line column : Nat) :
    List Char → Except Fault (List Char) × Cursor
  | [] => (.error ⟨.endInString, some (line, column)⟩, ⟨[], line, column⟩)
  | c :: cs =>
    match owed with
    | owed + 1 => readChars value owed line (column + c.utf8Size) cs
    | 0 =>
      if c = '\x22' then (.ok value.reverse, ⟨cs, line, column + 1⟩)
      else if c = '\\' then
        match readEscape ⟨cs, line, column + 1⟩ with
        | .ok (spelled, length) => readChars (spelled :: value) length line (column + 1) cs
        | .error e => (.error e, ⟨cs, line, column + 1⟩)
      else if c.toNat < 0x20 then
        let here : Cursor := ⟨c :: cs, line, column⟩
        (.error (here.faultBehind 1 .controlCharacter), here)
      else readChars (c :: value) 0 line (column + c.utf8Size) cs

/-- Passes over a string behind its opening quote. Surrogates are not looked at. -/
def skipChars (owed line column : Nat) : List Char → Except Fault Unit × Cursor
  | [] => (.error ⟨.endInString, some (line, column)⟩, ⟨[], line, column⟩)
  | c :: cs =>
    match owed with
    | owed + 1 => skipChars owed line (column + c.utf8Size) cs
    | 0 =>
      if c = '\x22' then (.ok (), ⟨cs, line, column + 1⟩)
      else if c = '\\' then
        let behind : Cursor := ⟨cs, line, column + 1⟩
        match cs with
        | [] => (.error (behind.faultHere .endInString), behind)
        | 'u' :: _ =>
          match hexEscape behind.next with
          | .ok _ => skipChars 5 line (column + 1) cs
          | .error e => (.error e, behind)
        | c :: _ =>
          if (letterEscape? c).isSome then skipChars 1 line (column + 1) cs
          else (.error (behind.faultBehind 1 .invalidEscape), behind)
      else if c.toNat < 0x20 then
        (.error ⟨.controlCharacter, some (line, column)⟩, ⟨c :: cs, line, column⟩)
      else skipChars 0 line (column + c.utf8Size) cs

namespace Reader

/-- Reads a string; its opening quote is the next character. -/
def text : Reader String := do
  advance
  fun s =>
    let (outcome, s) := readChars [] 0 s.line s.column s.rest
    (outcome.map String.ofList, s)

/-- Passes over a string; its opening quote is the next character. -/
def skipText : Reader Unit := do
  advance
  fun s => skipChars 0 s.line s.column s.rest

end Reader

/-- One character of a written string. -/
def writeChar (c : Char) : List Char :=
  if c = '\x22' then ['\\', '\x22']
  else if c = '\\' then ['\\', '\\']
  else if c = '\x08' then ['\\', 'b']
  else if c = '\x0c' then ['\\', 'f']
  else if c = '\n' then ['\\', 'n']
  else if c = '\r' then ['\\', 'r']
  else if c = '\t' then ['\\', 't']
  else if c.toNat < 0x20 then
    ['\\', 'u', '0', '0', Nat.digitChar (c.toNat / 16), Nat.digitChar (c.toNat % 16)]
  else [c]

/-- A string as JSON writes it. -/
def writeText (text : String) : List Char :=
  '\x22' :: text.toList.flatMap writeChar ++ ['\x22']

end AmdModules.Json
