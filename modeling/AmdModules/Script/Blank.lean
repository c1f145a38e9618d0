import AmdModules.Script.Alphabet
import AmdModules.Text.Bytes

/-!
# White space and comments

What stands between two tokens: spaces, line ends, `//` and `/* */` comments, and the two markers
that hide a line of script from a page, `<!--` anywhere and `-->` at the start of a line. A comment
that is never closed ends with the text.
-/

set_option autoImplicit false

namespace AmdModules.Script

/-- What is being skipped: blank space, or a comment that started at a byte offset. -/
inductive Skipping where
  | space
  | lineComment (start : Nat)
  | blockComment (start : Nat)

/-- The end of a stretch of blank space. -/
structure Blank where
  /-- The text behind the blank space. -/
  rest : List Char
  /-- The byte offset of that text. -/
  offset : Nat
  /-- Whether a line ended in the blank space. -/
  lineEnded : Bool
  /-- Where the first page marker stood. The token behind it counts as starting there. -/
  marker : Option Nat
  /-- Comments passed so far, the last one first. -/
  comments : List Span

/-- Whether the text goes on with the given characters. -/
def startsWith : List Char → List Char → Bool
  | [], _ => true
  | _ :: _, [] => false
  | m :: ms, c :: cs => m == c && startsWith ms cs

/-- Skips blank space. `owed` characters still belong to the marker that was just met; `lineEnded`
says whether a line has ended since the token before. -/
def skipBlank (skipping : Skipping) (owed offset : Nat) (lineEnded : Bool) (marker : Option Nat)
    (comments : List Span) : List Char → Blank
  | [] =>
    match skipping with
    | .space => ⟨[], offset, lineEnded, marker, comments⟩
    | .lineComment start | .blockComment start =>
      ⟨[], offset, lineEnded, marker, ⟨start, offset⟩ :: comments⟩
  | c :: cs =>
    let next := offset + c.utf8Size
    match owed with
    | owed + 1 => skipBlank skipping owed next lineEnded marker comments cs
    | 0 =>
      match skipping with
      | .lineComment start =>
        if isLineEnd c then skipBlank .space 0 next true marker (⟨start, offset⟩ :: comments) cs
        else skipBlank skipping 0 next lineEnded marker comments cs
      | .blockComment start =>
        if c == '*' && startsWith ['/'] cs then
          skipBlank .space 1 next lineEnded marker (⟨start, offset + 2⟩ :: comments) cs
        else skipBlank skipping 0 next (lineEnded || isLineEnd c) marker comments cs
      | .space =>
        if isLineEnd c then skipBlank .space 0 next true marker comments cs
        else if isSpace c then skipBlank .space 0 next lineEnded marker comments cs
        else if c == '/' && startsWith ['/'] cs then
          skipBlank (.lineComment offset) 1 next lineEnded marker comments cs
        else if c == '/' && startsWith ['*'] cs then
          skipBlank (.blockComment offset) 1 next lineEnded marker comments cs
        else if c == '<' && startsWith ['!', '-', '-'] cs then
          skipBlank (.lineComment offset) 3 next lineEnded (marker <|> some offset) comments cs
        else if lineEnded && c == '-' && startsWith ['-', '>'] cs then
          skipBlank (.lineComment offset) 2 next lineEnded (marker <|> some offset) comments cs
        else ⟨c :: cs, offset, lineEnded, marker, comments⟩

end AmdModules.Script
