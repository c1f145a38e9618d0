import AmdModules.Script.Node

/-!
# Loader calls

The calls a module loader is spoken to with: `define`, which says what a module is, and `require`,
which asks for modules. Only the bare names count, so neither a member nor another name for the same
function makes a loader call.

Both name the modules they need in an array of string literals, the first array among the arguments.
What else stands in the array is not known before the program runs and is left out.
-/

set_option autoImplicit false

namespace AmdModules.Loader

open Script (Node Kind)

/-- The functions of a loader. -/
inductive Function where
  | define
  | require
deriving DecidableEq, Repr

/-- The function of a name. -/
def Function.ofName? : String → Option Function
  | "define" => some .define
  | "require" => some .require
  | _ => none

/-- A call of a loader function. -/
structure Call where
  function : Function
  /-- Where the name of the function stands. -/
  callee : Span
  arguments : List Node
  /-- Where the whole call stands. -/
  span : Span
deriving Repr

/-- The value of a string literal. -/
def stringValue? (n : Node) : Option String :=
  match n.kind with
  | .string value => some value
  | _ => none

def isString (n : Node) : Bool :=
  (stringValue? n).isSome

/-- Whether a node is an array literal. -/
def isArray (n : Node) : Bool :=
  n.kind == .array

/-- The ids in the first array among the arguments. -/
def dependencyIds (arguments : List Node) : List String :=
  match arguments.find? isArray with
  | some array => array.parts.filterMap stringValue?
  | none => []

namespace Call

/-- The loader call a node is, if it is one. -/
def ofNode? : Node → Option Call
  | .mk .call span (.mk (.identifier name) callee _ :: arguments) =>
    (Function.ofName? name).map fun function => { function, callee, arguments, span }
  | _ => none

/-- The ids a call names. -/
def ids (call : Call) : List String :=
  dependencyIds call.arguments

/-- The call of `define` a node is, if it is one. -/
def definition? (n : Node) : Option Call :=
  (ofNode? n).filter (·.function = .define)

end Call

/-- The calls of `define` in a tree, in the order a walk meets them. -/
def definitions (root : Node) : List Call :=
  root.preorder.filterMap Call.definition?

end AmdModules.Loader
