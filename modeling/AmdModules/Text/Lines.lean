import AmdModules.Text.Bytes

/-!
# Lines and positions

Two ways to name a place meet here. A `Position` counts lines and the characters in front of the
place on its line. A `LineIndex` turns a position back into a byte offset, but adds the column to
the byte offset of the line: on a line with characters of several bytes the way there and back
loses the difference. `throughPosition` is that round trip, and every place the normalizer edits
at has gone through it.

The index is lazy. It finds line starts only as far as it has been asked and keeps what it found.
-/

set_option autoImplicit false

namespace AmdModules

/-- A place as a line and a column, both counted from zero; the column counts characters. -/
structure Position where
  line : Nat
  character : Nat
deriving DecidableEq, Repr, Inhabited

/-- Walks `offset` bytes into the text from a place at `p`. Lines end at a line feed only. An
offset inside a character stands for that character. -/
def Position.walk (p : Position) : Nat → List Char → Position
  | _, [] => p
  | offset, c :: cs =>
    if offset < c.utf8Size then p
    else
      walk (if c = '\n' then ⟨p.line + 1, 0⟩ else ⟨p.line, p.character + 1⟩)
        (offset - c.utf8Size) cs

/-- The position of a byte offset; an offset behind the end stands for the end. -/
def Position.ofOffset (text : List Char) (offset : Nat) : Position :=
  Position.walk ⟨0, 0⟩ offset text

/-- The position of a byte offset, if the text reaches that far. -/
def Position.ofOffset? (text : List Char) (offset : Nat) : Option Position :=
  if offset ≤ Text.byteLength text then some (Position.ofOffset text offset) else none

/-- Line starts of a text, found on demand. `rest` is what has not been searched for line feeds
and starts at byte `scanned`. -/
structure LineIndex where
  size : Nat
  starts : Array Nat
  scanned : Nat
  rest : List Char
deriving Repr

namespace LineIndex

/-- The index before the first question: only the start of the first line is known. -/
def ofText (text : List Char) : LineIndex :=
  { size := Text.byteLength text, starts := #[0], scanned := 0, rest := text }

/-- The bytes up to and including the first line feed, and what follows it. -/
def breakLine? : List Char → Option (Nat × List Char)
  | [] => none
  | c :: cs =>
    if c = '\n' then some (1, cs)
    else (breakLine? cs).map fun (bytes, after) => (c.utf8Size + bytes, after)

/-- Searches for up to `missing` more line starts. -/
def grow : Nat → LineIndex → LineIndex
  | 0, index => index
  | missing + 1, index =>
    match index.rest with
    | [] => index
    | c :: cs =>
      match breakLine? (c :: cs) with
      | some (bytes, after) =>
        grow missing
          { index with
            starts := index.starts.push (index.scanned + bytes)
            scanned := index.scanned + bytes
            rest := after }
      | none => { index with scanned := index.size, rest := [] }

/-- The byte offset at which a line starts, lines counted from one. A line behind the last starts
where the last one does; line zero is read as line one. -/
def offsetOfLine (line : Nat) (index : LineIndex) : Nat × LineIndex :=
  let wanted := line - 1
  let index := index.grow (wanted + 1 - index.starts.size)
  (index.starts.getD wanted (index.starts.getD (index.starts.size - 1) 0), index)

/-- The byte offset of a position: its line's start plus its column, cut off at the end of the
text. -/
def offsetOf (p : Position) (index : LineIndex) : Nat × LineIndex :=
  let (start, index) := index.offsetOfLine (p.line + 1)
  (min (start + p.character) index.size, index)

/-- How many line starts have been found. -/
def indexedLines (index : LineIndex) : Nat :=
  index.starts.size

end LineIndex

/-- A text without the mark that some editors put in front of it. -/
def Text.withoutByteOrderMark : List Char → List Char
  | '\ufeff' :: cs => cs
  | cs => cs

/-- The position of a byte offset in a source. The mark in front of a source is no part of its text,
and offsets do not count it. -/
def Position.ofSource? (source : List Char) (offset : Nat) : Option Position :=
  Position.ofOffset? (Text.withoutByteOrderMark source) offset

/-- A byte offset after the detour over its position. On a line of ASCII it comes back as it was;
every byte beyond the first of a character before it on its line is lost. -/
def throughPosition (text : List Char) (offset : Nat) : Nat :=
  ((LineIndex.ofText text).offsetOf (Position.ofOffset text offset)).1

/-- A stretch with both ends taken through their positions. -/
def Span.throughPosition (text : List Char) (s : Span) : Span :=
  ⟨AmdModules.throughPosition text s.start, AmdModules.throughPosition text s.stop⟩

end AmdModules
