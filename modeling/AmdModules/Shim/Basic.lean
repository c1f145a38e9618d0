import AmdModules.Script.Quoted
import AmdModules.Text.Split

/-!
# Shims

Some scripts leave their result in a global variable and never call `define`. A shim says what such
a script needs and what it leaves behind, and `define` writes the call that is appended to it.

An `init` function may replace the global. It needs `exports` all the same, because the global is
what counts when the function returns nothing.
-/

set_option autoImplicit false

namespace AmdModules

/-- What a script that does not call `define` needs and leaves behind. -/
structure Shim where
  /-- The ids of the modules it needs. -/
  deps : List String
  /-- The global it leaves behind, as a dotted name. -/
  exports : Option String := none
  /-- The text of a function that is called with the modules. -/
  init : Option String := none
deriving DecidableEq, Repr, Inhabited

/-- Why a shim is not one. -/
inductive ShimError where
  | initWithoutExports
  | invalidExports (exports : String)
deriving DecidableEq, Repr

/-- What is said about the error. -/
def ShimError.message : ShimError → String
  | .initWithoutExports => "Shim declares an init function but no exports."
  | .invalidExports exports => "Shim exports \"" ++ exports ++ "\" is not a dotted global name."

namespace Shim

/-- Letters, marks, decimal digits, connectors and joiners. -/
def isWordChar (c : Char) : Bool :=
  if c.toNat < 128 then c.isAlphanum || c == '_'
  else
    Unicode.letterRanges.has c || Unicode.markRanges.has c || Unicode.digitRanges.has c
      || Unicode.connectorRanges.has c || c == '\u200c' || c == '\u200d'
      || ('\u24b6' ≤ c && c ≤ '\u24e9')
      || (0x1F130 ≤ c.toNat && c.toNat ≤ 0x1F149) || (0x1F150 ≤ c.toNat && c.toNat ≤ 0x1F169)
      || (0x1F170 ≤ c.toNat && c.toNat ≤ 0x1F189)

/-- Whether a name of a global may start with `c`. -/
def startsName (c : Char) : Bool :=
  c.isAlpha || c == '_' || c == '$'

/-- Whether a name of a global may go on with `c`. -/
def continuesName (c : Char) : Bool :=
  isWordChar c || c == '$'

/-- One name of a dotted one. -/
def isName : List Char → Bool
  | [] => false
  | c :: cs => startsName c && cs.all continuesName

/-- Names separated by dots. -/
def isDottedName (text : List Char) : Bool :=
  (Text.splitOn '.' text).all isName

/-- A shim that only says what a script needs. -/
def ofDeps (deps : List String) : Shim :=
  { deps }

/-- A shim from its parts, which have to fit together. -/
def ofParts (deps : List String) (exports init : Option String) : Except ShimError Shim :=
  match exports, init with
  | none, some _ => .error .initWithoutExports
  | some name, _ =>
    if isDottedName name.toList then .ok { deps, exports, init } else .error (.invalidExports name)
  | none, none => .ok { deps }

/-- A text as a string literal in double quotes. -/
def literal (text : String) : List Char :=
  '\x22' :: Script.escape '\x22' text.toList ++ ['\x22']

/-- The list of what is needed, if there is something. The quotes between two ids stand with the
comma that separates them. -/
def depsText (deps : List String) : List Char :=
  if deps.isEmpty then []
  else
    ", [\"".toList
      ++ Text.joinWith "\", \"".toList (deps.map fun dep => Script.escape '\x22' dep.toList)
      ++ "\"]".toList

/-- The function that answers a global, or what `init` makes of it. -/
def factoryText (exports : String) (init : Option String) : List Char :=
  ", (function (global) \x7b\n    return function () \x7b\n        var ret, fn;\n".toList
    ++ (match init with
      | some init =>
        "fn = ".toList ++ init.toList ++ ";\n        ret = fn.apply(global, arguments);\n".toList
      | none => [])
    ++ "        return ret || global.".toList ++ exports.toList
    ++ ";\n    \x7d;\n\x7d(this)));\n".toList

/-- The call of `define` that is appended to a script of the given name. Without `exports` the
module has no value, and then what it needs is not said either. -/
def define (name : String) (shim : Option Shim) : List Char :=
  "\ndefine(".toList ++ literal name
    ++ match shim with
      | some { deps, exports := some exports, init } => depsText deps ++ factoryText exports init
      | _ => ", function()\x7b\x7d);\n".toList

end Shim

end AmdModules
