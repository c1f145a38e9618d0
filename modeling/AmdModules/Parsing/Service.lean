import AmdModules.Event
import AmdModules.Script.Program

/-!
# Parsing on request

Normalizing a module and searching it for dependencies both need its tree. They ask a `Service` for
it, which may keep a state of its own: count the requests, or remember what it has parsed.
-/

set_option autoImplicit false

namespace AmdModules

/-- A text to be parsed, and as what. -/
structure ParseRequest where
  specifier : Url
  text : List Char
  mediaType : MediaType
deriving DecidableEq, Repr

/-- A text that was accepted. -/
structure ParsedSource where
  text : List Char
  mediaType : MediaType
  program : Script.Program
deriving Repr, Inhabited

/-- A text that was refused; the specifier says which. -/
structure SyntaxError where
  specifier : Url
deriving DecidableEq, Repr

/-- Parses the text of a request. -/
def ParseRequest.parse (request : ParseRequest) : Except SyntaxError ParsedSource :=
  match Script.parse request.mediaType.dialect request.text with
  | some program => .ok { text := request.text, mediaType := request.mediaType, program }
  | none => .error { specifier := request.specifier }

/-- Something that parses on request. -/
def Service (σ : Type) : Type :=
  ParseRequest → Traced σ (Except SyntaxError ParsedSource)

namespace Service

/-- Parses every request. -/
def direct {σ : Type} : Service σ := fun request => pure request.parse

/-- Parses every request and counts them. -/
def counting : Service Nat := fun request count =>
  { value := request.parse, state := count + 1 }

end Service

end AmdModules
