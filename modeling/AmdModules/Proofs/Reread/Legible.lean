import AmdModules.Proofs.Layout.Arguments
import AmdModules.Proofs.Reread.Filling

/-!
# What a grammar reads of a filling

What is put into a text is read by the same grammar as the text. `Filling.Legible` says what the
grammar has to make of it: whole arguments behind a parenthesis or a comma, and one more argument
behind an id that stands alone.
-/

set_option autoImplicit false

namespace AmdModules.Script

open Text
open Loader (Call)

/-! ## Reading what is put in -/

/-- The parser looks at the first token of a text. -/
def State.At (s : State) (cs : List Char) : Prop :=
  ∃ earlier, s.reading = readToken false earlier s.lastEnd cs

/-- From `s` on the parser reads the arguments `ns`, with their commas, and comes to `t`. -/
def Grammar.Takes (g : Grammar) (c : Context) (s : State) (ns : List Node) (t : State) : Prop :=
  ∀ (limit : Nat) (others : List Node) (u : State),
    Parser.manyUntil (Parser.isMarkOrEnd ")") (Parser.argument g) limit c t = .done others u →
    Parser.manyUntil (Parser.isMarkOrEnd ")") (Parser.argument g) (limit + ns.length) c s
      = .done (ns ++ others) u

/-- The id of a call is complete in itself: it is the literal behind the parenthesis, and stays that
literal whatever follows it. -/
def Complete (text : List Char) (call : Call) (id : Node) : Prop :=
  ∃ cs, From text (behindToken text call.callee.stop) cs
    ∧ ∃ value spelling rest,
      (readToken false [] (behindToken text call.callee.stop) cs).here = spelling ++ rest
      ∧ (readToken false [] (behindToken text call.callee.stop) cs).hereOffset + byteLength spelling
        = id.span.stop
      ∧ ∀ after, readKind (spelling ++ after) = (.string value, byteLength spelling, after)

variable {text : List Char}

/-- A grammar reads what is put in. -/
structure Filling.Legible (f : Filling text) (g : Grammar) : Prop where
  /-- A string in front of a comma is an argument. -/
  string : ∀ (c : Context) (s : State) (value : String), s.reading.token.kind = .string value →
    s.next.reading.token.kind = .mark "," → ∃ n, Parser.element g c s = .done n s.next
      ∧ n.plain = .mk (.string value) ⟨0, 0⟩ []
  /-- Behind the parenthesis and behind the comma of an id whole arguments are put in. -/
  leads : ∀ {place : Nat} {call : Call}, f.owns place call → f.put place ≠ [] →
    place = behindToken text call.callee.stop
      ∨ (∃ id next others, call.arguments = id :: next :: others ∧ Loader.isString id = true
        ∧ place = behindToken text id.span.stop) →
    ∀ (c : Context) (s : State) (cs : List Char), s.At (f.put place ++ cs) →
      ∃ ns t, g.Takes c s ns t ∧ ns.length ≤ 2 ∧ ns.map Node.plain = f.nodes place ∧ t.At cs
        ∧ t.lastEnd = s.lastEnd + byteLength (f.put place) ∧ t.inModule = s.inModule
  /-- Behind an id that stands alone a comma and an argument are put in. -/
  follows : ∀ {call : Call} {id : Node}, f.owns id.span.stop call → f.put id.span.stop ≠ [] →
    call.arguments = [id] → Loader.isString id = true → Complete text call id
      ∧ ∀ (c : Context) (s : State) (cs : List Char), s.At (f.put id.span.stop ++ cs) →
        (∀ t : State, t.At cs → t.lastEnd = s.lastEnd + byteLength (f.put id.span.stop) →
          t.reading.token.kind = .mark "," ∨ t.reading.token.kind = .mark ")") →
        s.reading.token.kind = .mark ","
          ∧ Parser.isMarkOrEnd ")" c s.next = .done false s.next
          ∧ ∃ n t, Parser.element g c s.next = .done n t ∧ [n.plain] = f.nodes id.span.stop
            ∧ t.At cs ∧ t.lastEnd = s.lastEnd + byteLength (f.put id.span.stop)
            ∧ t.inModule = s.inModule

end AmdModules.Script
