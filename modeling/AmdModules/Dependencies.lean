import AmdModules.Loader.Call
import AmdModules.ModuleId

/-!
# Dependencies

The ids a module names, each once and in the order they are met. Every call of `define` counts. A
call of `require` counts when the profile says so or when it is all of a statement at the top of the
program; anywhere else it may never run.

An id `plugin!resource` needs the plugin too, and in front of itself.
-/

set_option autoImplicit false

namespace AmdModules.Dependencies

open Script (Node)
open Loader (Call)

/-- Adds an id behind the others unless it is there. -/
def add (found : List String) (id : String) : List String :=
  if found.contains id then found else found ++ [id]

/-- Adds ids one after the other. -/
def addAll (found ids : List String) : List String :=
  ids.foldl add found

/-- An id with the plugin it needs in front of it. -/
def withPlugin (id : String) : List String :=
  match ModuleId.plugin? id.toList with
  | some (plugin, _) => [String.ofList plugin, id]
  | none => [id]

/-- Where a walk over a program stands, and what it has found so far. -/
structure Walk where
  /-- How many statements stand around the place. -/
  statements : Nat := 0
  /-- How many functions and classes stand around it. -/
  scopes : Nat := 0
  /-- Where the call stands that is all of the statement the walk is in, when that statement is at
  the top of the program. -/
  whole : Option Span := none
  /-- The ids found, each once. -/
  found : List String := []
deriving DecidableEq, Repr, Inhabited

/-- One more, if it counts. -/
def countIf (counts : Bool) (n : Nat) : Nat :=
  if counts then n + 1 else n

/-- One less, if it counts; `none` when nothing has been counted. -/
def uncountIf (counts : Bool) (n : Nat) : Option Nat :=
  match counts, n with
  | false, n => some n
  | true, n + 1 => some n
  | true, 0 => none

/-- Where the call stands that a statement with the given parts consists of. -/
def wholeCall? : List Node → Option Span
  | [expression] => if expression.kind == .call then some expression.span else none
  | _ => none

namespace Walk

/-- Goes into a node. Inside an expression statement no call of a statement around it is whole any
more, and its own is only at the top of the program. -/
def enter (w : Walk) (n : Node) : Walk :=
  let statements := countIf n.kind.isStatement w.statements
  let scopes := countIf n.kind.isScope w.scopes
  { w with
    statements
    scopes
    whole :=
      if n.kind == .expressionStatement then
        if statements == 1 && scopes == 0 then wholeCall? n.parts else none
      else w.whole }

/-- Comes out of a node that was entered when the call at `previous` was whole; `none` when more
nodes have been left than entered. -/
def leave (w : Walk) (kind : Script.Kind) (previous : Option Span) : Option Walk := do
  let statements ← uncountIf kind.isStatement w.statements
  let scopes ← uncountIf kind.isScope w.scopes
  let whole := if kind == .expressionStatement then previous else w.whole
  return { w with statements, scopes, whole }

/-- Whether a loader call counts where the walk stands. -/
def admits (w : Walk) (nested : Bool) (call : Call) : Bool :=
  match call.function with
  | .define => true
  | .require => nested || w.whole == some call.span

/-- Adds the ids a node names itself, its parts left out. -/
def visit (w : Walk) (nested : Bool) (n : Node) : Walk :=
  match Call.ofNode? n with
  | some call =>
    if w.admits nested call then
      { w with found := addAll w.found (call.ids.flatMap withPlugin) }
    else w
  | none => w

end Walk

mutual

/-- Walks through a tree: its root first, then its parts. -/
def walk (nested : Bool) (w : Walk) : Node → Option Walk
  | .mk kind span parts => do
    let inner ← walkAll nested
      ((w.enter (.mk kind span parts)).visit nested (.mk kind span parts)) parts
    inner.leave kind w.whole

/-- Walks through several trees. -/
def walkAll (nested : Bool) (w : Walk) : List Node → Option Walk
  | [] => some w
  | n :: ns => do
    let w ← walk nested w n
    walkAll nested w ns

end

/-- The ids a program names. A walk leaves as many nodes as it enters, so it always comes to its
end. -/
def ofTree (nested : Bool) (root : Node) : List String :=
  match walk nested { } root with
  | some w => w.found
  | none => []

end AmdModules.Dependencies
