import AmdModules.Script.Parser.Module

/-!
# Programs

The grammar as a whole. `grammar n` unrolls the productions `n` times; the number of unrollings a
text can need is bounded by its length, since between two visits of the same production a token is
read, so `parse` chooses it from the text and shows none.

A text is accepted when all of it is statements. A first line that starts with `#!` is not part of
the script.
-/

set_option autoImplicit false

namespace AmdModules.Script

/-- The production that parses a goal. -/
def production (g : Grammar) : Goal → Parser Node
  | .statement declarations => Parser.statement g declarations
  | .assignment => Parser.assignment g
  | .unary => Parser.unary g
  | .operators floor left => Parser.operators g floor left
  | .constructed => Parser.constructed g
  | .leftHandSide => Parser.leftHandSide g
  | .binding lexical => Parser.binding g lexical

/-- The grammar, unrolled `n` times. -/
def grammar : Nat → Grammar
  | 0 => { limit := 0, parse := fun _ => Parser.exhausted }
  | n + 1 =>
    { limit := n + 1
      parse := fun goal context state => production (grammar n) goal context state }

/-- An accepted text: its tree and its comments, in the order of the text. -/
structure Program where
  root : Node
  comments : List Span
deriving DecidableEq, Repr, Inhabited

/-- The byte offset and text behind a first line that starts with `#!`. -/
def skipHashbang (text : List Char) : Nat × List Char :=
  if startsWith ['#', '!'] text then
    let (line, rest) := text.span fun c => !isLineEnd c
    (Text.byteLength line, rest)
  else (0, text)

/-- Whether imports and exports may stand in a text. -/
inductive SourceType where
  /-- They may not. -/
  | script
  /-- They may, and all of the text is module code. -/
  | module
  /-- They may, and only then is the text a module. -/
  | either
deriving DecidableEq, Repr, Inhabited

/-- The variety of the language a text is written in. -/
structure Dialect where
  source : SourceType := .either
  /-- Whether markup elements are expressions. -/
  markup : Bool := false
  /-- Whether the grammar goes on behind something missing or stray. -/
  forgiving : Bool := true
deriving DecidableEq, Repr, Inhabited

/-- The statements of a program. -/
def programItems (g : Grammar) (dialect : Dialect) : Parser (List Node) := do
  let strict := (← Parser.token).kind == .string "use strict"
  Parser.within
    ({ · with
      topLevel := dialect.source != .script
      strict := strict
      markup := dialect.markup
      forgiving := dialect.forgiving })
    (Parser.manyUntil Parser.atEnd (do return [← g.parse (.statement true)]) g.limit)

/-- Parses a script or module; `none` when the text is refused. -/
def parse (dialect : Dialect) (text : List Char) : Option Program :=
  let (offset, rest) := skipHashbang text
  let start : State :=
    { reading := readToken true [] offset rest
      lastEnd := offset
      inModule := dialect.source == .module }
  match programItems (grammar (8 * (text.length + 2))) dialect { } start with
  | .done items s =>
    some
      { root :=
          .mk (if s.inModule then .module else .script) ⟨0, Text.byteLength text⟩ items
        comments := s.reading.comments.reverse }
  | .refused _ | .exhausted => none

end AmdModules.Script
