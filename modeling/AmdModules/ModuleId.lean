import AmdModules.Url.Parse

/-!
# Module ids

An id names a module to the loader. It is either a plain path, or `plugin!resource`, where a plugin
module loads the resource. The source of a plain id is the file of that path with the extension
`.js`; the source of a resource is the resource itself.
-/

set_option autoImplicit false

namespace AmdModules

namespace ModuleId

/-- The plugin and the resource of an id, cut at the first exclamation mark. An id that starts with
the mark has neither. -/
def plugin? (id : List Char) : Option (List Char × List Char) :=
  match Text.splitFirst? '!' id with
  | some (c :: plugin, resource) => some (c :: plugin, resource)
  | _ => none

/-- The path of the file an id stands for, relative to a base. -/
def sourcePath (id : List Char) : List Char :=
  match plugin? id with
  | some (_, resource) => resource
  | none => if Text.endsWith ".js".toList id then id else id ++ ".js".toList

end ModuleId

/-- An id that has no source under a base. -/
structure SpecifierError where
  name : String
  base : Url
  cause : UrlError
deriving DecidableEq, Repr

/-- What is said about the error. -/
def SpecifierError.message (e : SpecifierError) : String :=
  "Invalid module id \"" ++ e.name ++ "\" relative to \"" ++ toString e.base ++ "\": "
    ++ e.cause.message

namespace ModuleId

/-- Where modules live when nothing else is said: the root of the file system. -/
def defaultBase : Url :=
  Url.localFile ['/']

/-- Where a module is said to live when its name leads nowhere. -/
def fallback : Url :=
  Url.localFile "/module.js".toList

/-- The URL of the file an id stands for. -/
def resolve (base : Url) (name : String) : Except SpecifierError Url :=
  match base.join (sourcePath name.toList) with
  | .ok url => .ok url
  | .error cause => .error { name, base, cause }

end ModuleId

end AmdModules
