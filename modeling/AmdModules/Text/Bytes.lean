/-!
# Byte offsets in a text

A text is a list of characters; a place in it is a byte offset into its UTF-8 form. Offsets come
from the parser, from line numbers and from arithmetic on both, so an offset need not be a place
between two characters. Everything that cuts a text at an offset therefore answers `none` when the
offset falls inside a character or behind the end, and callers say what that means for them.
-/

set_option autoImplicit false

namespace AmdModules

/-- A stretch of a text between two byte offsets, the end not included. -/
structure Span where
  start : Nat
  stop : Nat
deriving DecidableEq, Repr, Inhabited

/-- Whether the byte at `offset` lies in the stretch. -/
def Span.contains (s : Span) (offset : Nat) : Bool :=
  s.start ≤ offset && offset < s.stop

namespace Text

/-- The number of bytes a text takes in UTF-8. -/
def byteLength : List Char → Nat
  | [] => 0
  | c :: cs => c.utf8Size + byteLength cs

/-- The text before and after a byte offset; `none` when the offset is inside a character or
behind the end. -/
def splitAt? : Nat → List Char → Option (List Char × List Char)
  | 0, cs => some ([], cs)
  | _ + 1, [] => none
  | n + 1, c :: cs =>
    if c.utf8Size ≤ n + 1 then
      (splitAt? (n + 1 - c.utf8Size) cs).map fun (before, after) => (c :: before, after)
    else none

/-- The text of a stretch; `none` when it runs backwards or an end is no place in the text. -/
def slice? (start stop : Nat) (cs : List Char) : Option (List Char) :=
  if start ≤ stop then do
    let (_, after) ← splitAt? start cs
    let (inside, _) ← splitAt? (stop - start) after
    return inside
  else none

/-- The byte offset of the first `target`, if there is one. -/
def find? (target : Char) : List Char → Option Nat
  | [] => none
  | c :: cs => if c = target then some 0 else (find? target cs).map (c.utf8Size + ·)

end Text

end AmdModules
