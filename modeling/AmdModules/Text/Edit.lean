import AmdModules.Text.Bytes

/-!
# Text edits

An edit replaces a stretch of a text. A set of edits is applied in one pass from left to right;
edits at the same place keep the order they were recorded in. Positions that crossed a line with
wide characters can make edits overlap, run backwards or cut a character in two; each of these is
a reason of its own for the whole set to be refused. A character is cut only by copying a part of
it: an end of a stretch that nothing is copied up to is never looked at.
-/

set_option autoImplicit false

namespace AmdModules

/-- Replaces the stretch `span` by `text`. -/
structure Edit where
  span : Span
  text : List Char
deriving DecidableEq, Repr

/-- Why a set of edits does not fit a text. -/
inductive EditError where
  /-- A stretch ends before it starts. -/
  | reversed
  /-- A stretch starts before the one in front of it has ended. -/
  | overlapping
  /-- What is kept between two stretches starts or ends inside a character. -/
  | notAPlace
deriving DecidableEq, Repr

namespace Edit

/-- Puts `text` at one place and removes nothing. -/
def insertAt (offset : Nat) (text : List Char) : Edit :=
  ⟨⟨offset, offset⟩, text⟩

/-- Removes a stretch. -/
def delete (span : Span) : Edit :=
  ⟨span, []⟩

/-- The order in which edits are applied: by start, then by end. -/
def le (a b : Edit) : Bool :=
  a.span.start < b.span.start || (a.span.start == b.span.start && a.span.stop ≤ b.span.stop)

/-- Places an edit that was recorded before those of an ordered list. -/
def place (e : Edit) : List Edit → List Edit
  | [] => [e]
  | f :: fs => if e.le f then e :: f :: fs else f :: place e fs

/-- Orders edits; those at the same place stay in the order they were recorded in. -/
def sort : List Edit → List Edit
  | [] => []
  | e :: es => place e (sort es)

/-- What is kept of a text between two stretches. Where nothing stands between them, and behind the
end of the text, nothing is cut. -/
def keep (text : List Char) (start stop : Nat) : Except EditError (List Char) :=
  let stop := min stop (Text.byteLength text)
  if start < stop then
    match Text.slice? start stop text with
    | some kept => .ok kept
    | none => .error .notAPlace
  else .ok []

/-- Applies ordered edits to a text from byte `offset` on. -/
def applyFrom (text : List Char) (offset : Nat) : List Edit → Except EditError (List Char)
  | [] => keep text offset (Text.byteLength text)
  | e :: es =>
    if e.span.stop < e.span.start then .error .reversed
    else if e.span.start < offset then .error .overlapping
    else do
      let kept ← keep text offset e.span.start
      let after ← applyFrom text e.span.stop es
      return kept ++ e.text ++ after

/-- Applies a set of edits to a text. -/
def applyAll (text : List Char) (edits : List Edit) : Except EditError (List Char) :=
  applyFrom text 0 (sort edits)

end Edit

end AmdModules
