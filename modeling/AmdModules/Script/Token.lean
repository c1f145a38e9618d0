import AmdModules.Script.Quoted

/-!
# Tokens

The words, marks and literals a script is made of. Whether a slash divides or opens a regular
expression depends on what the parser expects, and so does the text of a template; the reader here
takes a slash and a backquote as marks, and the parser calls `readRegexp` and `readChunk` where the
grammar allows them.
-/

set_option autoImplicit false

namespace AmdModules.Script

open Text

/-- What a token is. -/
inductive TokenKind where
  /-- A name or keyword, with escapes decoded. -/
  | word (name : String)
  /-- An operator or bracket. -/
  | mark (text : String)
  /-- A string literal and the text it stands for. -/
  | string (value : String)
  /-- A number and its spelling. -/
  | number (spelling : String)
  /-- Something that is no token. -/
  | bad
  /-- The end of the text. -/
  | ending
deriving DecidableEq, Repr, Inhabited

/-- A token and its place. -/
structure Token where
  kind : TokenKind
  span : Span
  /-- Whether a line ended between the token before and this one. -/
  onNewLine : Bool
deriving DecidableEq, Repr, Inhabited

/-- Marks, longer ones first, so that the first that fits is the longest that fits. -/
def marks : List (String × List Char) :=
  [ ">>>=",
    "...", "===", "!==", "**=", "<<=", ">>=", ">>>", "&&=", "||=", "??=",
    "=>", "==", "!=", "<=", ">=", "&&", "||", "??", "?.", "++", "--", "+=", "-=", "*=", "/=", "%=",
    "&=", "|=", "^=", "<<", ">>", "**",
    "\x7b", "\x7d", "(", ")", "[", "]", ";", ",", "<", ">", "+", "-", "*", "/", "%", "&", "|", "^",
    "!", "~", "?", ":", "=", ".", "@", "#", "`" ].map fun text => (text, text.toList)

/-- The mark a text starts with. A question mark in front of a decimal fraction stands alone. -/
def readMark? (cs : List Char) : Option (String × List Char) :=
  (marks.find? fun (text, spelling) =>
      startsWith spelling cs
        && !(text == "?." && ((cs.drop 2).head?.map isDigit).getD false)).map
    fun (text, spelling) => (text, cs.drop spelling.length)

/-- Words that are never names. -/
def reservedWords : List String :=
  [ "break", "case", "catch", "class", "const", "continue", "debugger", "default", "delete", "do",
    "else", "export", "extends", "false", "finally", "for", "function", "if", "import", "in",
    "instanceof", "new", "null", "return", "super", "switch", "this", "throw", "true", "try",
    "typeof", "var", "void", "while", "with" ]

/-- Reads the rest of a name that is spelled with escapes. `name` holds what has been read, last
character first. -/
def readEscapedName (name : List Char) : Nat → List Char → Option (List Char × List Char)
  | 0, cs => some (name.reverse, cs)
  | fuel + 1, cs =>
    match cs with
    | '\\' :: 'u' :: cs => do
      let (spelled, length) ← unicodeEscape? cs
      match spelled with
      | [c] =>
        if (if name.isEmpty then isNameStart c else isNamePart c) then
          readEscapedName (c :: name) fuel (cs.drop length)
        else none
      | _ => none
    | '\\' :: _ => none
    | c :: cs =>
      if isNamePart c then readEscapedName (c :: name) fuel cs else some (name.reverse, c :: cs)
    | [] => some (name.reverse, [])

/-- Reads a name, and says whether it was spelled with escapes. -/
def readName (cs : List Char) : Option (List Char × List Char × Bool) :=
  let (plain, rest) := cs.span isNamePart
  match rest with
  | '\\' :: _ =>
    (readEscapedName plain.reverse (rest.length + 1) rest).map fun (name, rest) =>
      (name, rest, true)
  | _ => some (plain, rest, false)

/-- Digits of a number; underscores may stand between them. -/
def readDigits (isOne : Char → Bool) (cs : List Char) : List Char × List Char :=
  cs.span fun c => isOne c || c == '_'

/-- The exponent of a number, if there is one; `none` when it has no digits. -/
def readExponent (cs : List Char) : Option (List Char) :=
  match cs with
  | c :: rest =>
    if c == 'e' || c == 'E' then
      let rest :=
        match rest with
        | '+' :: r | '-' :: r => r
        | r => r
      let (digits, rest) := readDigits isDigit rest
      if digits.isEmpty then none else some rest
    else some cs
  | [] => some []

/-- What may follow a number: no name directly behind it. -/
def endNumber (cs : List Char) : Option (List Char) :=
  match cs with
  | c :: _ => if isNameStart c then none else some cs
  | [] => some []

/-- Reads a number and answers what follows it. -/
def readNumber (cs : List Char) : Option (List Char) :=
  let radix (isOne : Char → Bool) (cs : List Char) : Option (List Char) :=
    let (digits, rest) := readDigits isOne cs
    if digits.isEmpty then none
    else endNumber (if startsWith ['n'] rest then rest.drop 1 else rest)
  match cs with
  | '0' :: 'x' :: cs | '0' :: 'X' :: cs => radix isHexDigit cs
  | '0' :: 'o' :: cs | '0' :: 'O' :: cs => radix isOctalDigit cs
  | '0' :: 'b' :: cs | '0' :: 'B' :: cs => radix (fun c => c == '0' || c == '1') cs
  | _ =>
    let (whole, rest) := readDigits isDigit cs
    if startsWith ['0'] whole && 1 < whole.length && whole.all isOctalDigit then endNumber rest
    else
      match rest with
      | '.' :: rest => do
        let (_, rest) := readDigits isDigit rest
        endNumber (← readExponent rest)
      | 'n' :: rest => endNumber rest
      | rest => do endNumber (← readExponent rest)

/-- A token with the text around it. -/
structure Reading where
  token : Token
  /-- The text from the first character of the token on, and its byte offset. -/
  here : List Char
  hereOffset : Nat
  /-- The text behind the token; it starts at byte `token.span.stop`. -/
  rest : List Char
  /-- All comments passed so far, the last one first. -/
  comments : List Span
deriving Inhabited

/-- The kind of the token a text starts with, and what follows it. -/
def readKind (cs : List Char) : TokenKind × Nat × List Char :=
  let upTo (kind : TokenKind) (rest : List Char) : TokenKind × Nat × List Char :=
    (kind, Text.byteLength (cs.take (cs.length - rest.length)), rest)
  match cs with
  | [] => (.ending, 0, [])
  | c :: rest =>
    if isNameStart c || c == '\\' then
      match readName cs with
      | some (name, rest, false) => (.word (String.ofList name), Text.byteLength name, rest)
      | some (name, rest, true) =>
        let name := String.ofList name
        upTo (if reservedWords.contains name then .bad else .word name) rest
      | none => (.bad, c.utf8Size, rest)
    else if c == '\x22' || c == '\x27' then
      match readQuoted c [] 0 c.utf8Size rest with
      | .ended value bytes rest => (.string (String.ofList value), bytes, rest)
      | .badEscape bytes rest => (.bad, bytes, rest)
    else if isDigit c || (c == '.' && ((rest.head?).map isDigit).getD false) then
      match readNumber cs with
      | some rest => upTo (.number (String.ofList (cs.take (cs.length - rest.length)))) rest
      | none => (.bad, c.utf8Size, rest)
    else
      match readMark? cs with
      | some (text, rest) => (.mark text, text.utf8ByteSize, rest)
      | none => (.bad, c.utf8Size, rest)

/-- Reads the token behind blank space. -/
def readToken (lineEnded : Bool) (comments : List Span) (offset : Nat) (cs : List Char) : Reading :=
  let blank := skipBlank .space 0 offset lineEnded none comments cs
  let (kind, bytes, rest) := readKind blank.rest
  { token :=
      { kind
        span := ⟨blank.marker.getD blank.offset, blank.offset + bytes⟩
        onNewLine := blank.lineEnded }
    here := blank.rest
    hereOffset := blank.offset
    rest
    comments := blank.comments }

end AmdModules.Script
