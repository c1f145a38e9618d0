import AmdModules.Script.Alphabet
import AmdModules.Script.Blank

/-!
# String literals

Reading a string literal and writing one. `readQuoted` is the reader of the script grammar: it
decodes escapes, stops at the closing quote, and ends a literal that is never closed in front of the
line end. `escape` is the writer used for names that are put into a script. It knows four escapes,
and they are enough: reading back what it writes gives the text again, whatever follows.
-/

set_option autoImplicit false

namespace AmdModules.Script

open Text

/-- Whether a number is one of the code points set aside for surrogate pairs. -/
def isSurrogate (n : Nat) : Bool :=
  0xD800 ≤ n && n ≤ 0xDFFF

/-- What follows the letter of a unicode escape: the characters it stands for and how many
characters spell it. The number of a surrogate stands for its own spelling. -/
def unicodeEscape? : List Char → Option (List Char × Nat)
  | '\x7b' :: cs =>
    let digits := cs.takeWhile isHexDigit
    if digits.isEmpty || !startsWith ['\x7d'] (cs.drop digits.length) then none
    else do
      let n ← hexNumber? digits
      if 0x10FFFF < n then none
      else if isSurrogate n then
        some (['\\', 'u', '\x7b'] ++ digits ++ ['\x7d'], digits.length + 2)
      else some ([Char.ofNat n], digits.length + 2)
  | a :: b :: c :: d :: _ => do
    let n ← hexNumber? [a, b, c, d]
    if isSurrogate n then some (['\\', 'u', a, b, c, d], 4) else some ([Char.ofNat n], 4)
  | _ => none

/-- An octal escape that starts with the digit `first`: at most three digits, and no number above
255. -/
def octalEscape (first : Char) (cs : List Char) : List Char × Nat :=
  let digit := fun (c : Char) => c.toNat - '0'.toNat
  match cs with
  | second :: cs =>
    if isOctalDigit second then
      let two := digit first * 8 + digit second
      match cs with
      | third :: _ =>
        if isOctalDigit third && two * 8 + digit third ≤ 255 then
          ([Char.ofNat (two * 8 + digit third)], 3)
        else ([Char.ofNat two], 2)
      | [] => ([Char.ofNat two], 2)
    else ([Char.ofNat (digit first)], 1)
  | [] => ([Char.ofNat (digit first)], 1)

/-- What follows a backslash: the characters it stands for and how many characters spell it. A
line end behind a backslash stands for nothing. -/
def escape? : List Char → Option (List Char × Nat)
  | [] => none
  | c :: cs =>
    if c == '\r' && startsWith ['\n'] cs then some ([], 2)
    else if isLineEnd c then some ([], 1)
    else if isOctalDigit c then some (octalEscape c cs)
    else
      match c with
      | 'n' => some (['\n'], 1)
      | 't' => some (['\t'], 1)
      | 'r' => some (['\r'], 1)
      | 'b' => some (['\x08'], 1)
      | 'v' => some (['\x0b'], 1)
      | 'f' => some (['\x0c'], 1)
      | 'x' =>
        match cs with
        | a :: b :: _ => (hexNumber? [a, b]).map fun n => ([Char.ofNat n], 3)
        | _ => none
      | 'u' => (unicodeEscape? cs).map fun (spelled, n) => (spelled, n + 1)
      | c => some ([c], 1)

/-- The end of a string literal. -/
inductive Quoted where
  /-- The literal stands for `value`; `rest` follows it at byte `offset`. -/
  | ended (value : List Char) (offset : Nat) (rest : List Char)
  /-- An escape that is not one; reading could go on with `rest`. -/
  | badEscape (offset : Nat) (rest : List Char)
deriving DecidableEq, Repr

/-- Reads a literal behind its opening quote. `value` holds what has been read, last character
first; `owed` characters still belong to the escape that was just decoded. -/
def readQuoted (quote : Char) (value : List Char) (owed offset : Nat) : List Char → Quoted
  | [] => .ended value.reverse offset []
  | c :: cs =>
    let next := offset + c.utf8Size
    match owed with
    | owed + 1 => readQuoted quote value owed next cs
    | 0 =>
      if c == quote then .ended value.reverse next cs
      else if c == '\\' then
        match escape? cs with
        | some (spelled, length) => readQuoted quote (spelled.reverse ++ value) length next cs
        | none => .badEscape next cs
      else if c == '\n' || c == '\r' then .ended value.reverse offset (c :: cs)
      else readQuoted quote (c :: value) 0 next cs

/-- Whether a character cannot stand for itself between two quotes. -/
def needsEscape (quote c : Char) : Bool :=
  c == '\\' || c == quote || c == '\n' || c == '\r'

/-- How a character is written between two quotes: a backslash goes in front of the quote and of a
backslash, and line feeds and carriage returns are named. -/
def escapeChar (quote c : Char) : List Char :=
  if c = '\\' then ['\\', '\\']
  else if c = '\n' then ['\\', 'n']
  else if c = '\r' then ['\\', 'r']
  else if c = quote then ['\\', c]
  else [c]

/-- Writes a text for use between two quotes. A text in which every character can stand for itself
is handed back as it is. -/
def escape (quote : Char) (text : List Char) : List Char :=
  if text.any (needsEscape quote) then text.flatMap (escapeChar quote) else text

/-- The end of one literal part of a template. -/
structure Chunk where
  /-- Whether every escape in it has a meaning. -/
  wellFormed : Bool
  /-- Whether the template ends here; otherwise a substitution follows. -/
  closes : Bool
  offset : Nat
  rest : List Char

/-- Whether a template gives a meaning to what follows a backslash. Octal escapes have none. -/
def templateEscapeOk (cs : List Char) : Bool :=
  match cs with
  | '0' :: c :: _ => !isOctalDigit c
  | '0' :: [] => true
  | c :: _ => !isOctalDigit c && (escape? cs).isSome
  | [] => false

/-- Reads a part of a template up to its closing backquote or the start of a substitution; `none`
when the text ends first. -/
def readChunk (wellFormed escaped : Bool) (offset : Nat) : List Char → Option Chunk
  | [] => none
  | c :: cs =>
    let next := offset + c.utf8Size
    if escaped then readChunk wellFormed false next cs
    else if c == '\x60' then some ⟨wellFormed, true, next, cs⟩
    else if c == '$' && startsWith ['\x7b'] cs then some ⟨wellFormed, false, offset + 2, cs.drop 1⟩
    else if c == '\\' then readChunk (wellFormed && templateEscapeOk cs) true next cs
    else readChunk wellFormed false next cs

/-- Finds the end of a regular expression behind its opening slash, at the byte offset and with the
text that follow the closing one. A slash in a character class or behind a backslash does not close
it, and it ends on its line. -/
def readRegexp (escaped inClass : Bool) (offset : Nat) : List Char → Option (Nat × List Char)
  | [] => none
  | c :: cs =>
    let next := offset + c.utf8Size
    if isLineEnd c then none
    else if escaped then readRegexp false inClass next cs
    else if c == '/' && !inClass then some (next, cs)
    else
      readRegexp (c == '\\') (c == '[' || (inClass && c != ']')) next cs

end AmdModules.Script
