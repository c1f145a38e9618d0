import AmdModules.Loader.Definition
import AmdModules.Profile.Basic
import AmdModules.Script.Program
import AmdModules.Text.Edit
import AmdModules.Text.Lines

/-!
# Named definitions

Edits that turn the text of a module into one with a named `define` call. Three kinds of edits are
collected in a walk over the tree and applied together: `use strict` statements are taken out unless
they may stay, a call of `define` gets what it lacks, and a text without such a call gets one
appended.

The tree says which call lacks what, but not where its parenthesis and commas stand; these are
searched for in the text, comments left out. Every place that comes from the tree has gone through
its line and column (`Text.Lines`).
-/

set_option autoImplicit false

namespace AmdModules.Normalize

open Script (Node Program)
open Loader (Call Repair)

/-- The first `c` between two places that is in no comment. Each comment is passed at most once, so
one step more than there are comments is enough. -/
def findOutsideFrom (text : List Char) (comments : List Span) (c : Char) (stop : Nat) :
    Nat → Nat → Option Nat
  | 0, _ => none
  | steps + 1, offset => do
    let inside ← Text.slice? offset stop text
    let found := offset + (← Text.find? c inside)
    match comments.find? (·.contains found) with
    | some comment => findOutsideFrom text comments c stop steps comment.stop
    | none => some found

/-- The first `c` from `offset` on and before `stop` that is in no comment. -/
def findOutside (text : List Char) (comments : List Span) (offset stop : Nat) (c : Char) :
    Option Nat :=
  findOutsideFrom text comments c stop (comments.length + 1) offset

/-- The id of the module and a comma, and an empty array if one is lacking. -/
def idText (name : String) (withDependencies : Bool) : List Char :=
  ['\x27'] ++ Script.escape '\x27' name.toList ++ ['\x27', ',']
    ++ if withDependencies then "[],".toList else []

/-- Where the empty array goes in a call that starts with an id: behind the comma that ends the id,
or right behind the id when there is none. -/
def dependenciesEdit (text : List Char) (comments : List Span) : List Node → List Edit
  | [] => []
  | [id] => [.insertAt (throughPosition text id.span.stop) ",[]".toList]
  | id :: next :: _ =>
    let idEnd := throughPosition text id.span.stop
    match findOutside text comments idEnd (throughPosition text next.span.start) ',' with
    | some comma => [.insertAt (comma + 1) "[],".toList]
    | none => [.insertAt idEnd ",[],".toList]

/-- The edit that completes a call of `define`; none when it is complete or its parenthesis is not
found. -/
def callEdits (name : String) (text : List Char) (comments : List Span) (call : Call) :
    List Edit :=
  match Loader.repair? call.arguments with
  | none => []
  | some repair =>
    match findOutside text comments (throughPosition text call.callee.stop)
        (throughPosition text call.span.stop) '(' with
    | none => []
    | some parenthesis =>
      match repair with
      | .id withDependencies => [.insertAt (parenthesis + 1) (idText name withDependencies)]
      | .dependencies => dependenciesEdit text comments call.arguments

/-- Whether a node is a statement of nothing but the string `use strict`. -/
def isUseStrict : Node → Bool
  | .mk .expressionStatement _ [expression] => expression.kind == .string "use strict"
  | _ => false

/-- The edits that a node asks for itself, its parts left out. -/
def nodeEdits (useStrict : Bool) (name : String) (text : List Char) (comments : List Span)
    (n : Node) : List Edit :=
  if isUseStrict n then
    if useStrict then [] else [.delete (n.span.throughPosition text)]
  else
    match Call.definition? n with
    | some call => callEdits name text comments call
    | none => []

/-- The edits inside a text. -/
def treeEdits (useStrict : Bool) (name : String) (text : List Char) (program : Program) :
    List Edit :=
  let comments := program.comments.map (·.throughPosition text)
  program.root.preorder.flatMap (nodeEdits useStrict name text comments)

/-- All edits of a module: those inside the text, and the appended call when there is none. -/
def edits (profile : Profile) (name : String) (text : List Char) (program : Program) : List Edit :=
  treeEdits profile.useStrict name text program
    ++ if (Loader.definitions program.root).isEmpty then
      [.insertAt (Text.byteLength text) (Shim.define name (profile.shim? name))]
    else []

/-- The text of a module with a named definition. -/
def apply (profile : Profile) (name : String) (text : List Char) (program : Program) :
    Except EditError (List Char) :=
  Edit.applyAll text (edits profile name text program)

end AmdModules.Normalize
