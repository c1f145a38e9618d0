import AmdModules.Normalize.Edits
import AmdModules.Parsing.Service

/-!
# Normalizing texts

A text is parsed by a service and then edited. Nothing is changed when either fails, and an empty
text stays empty without being parsed.
-/

set_option autoImplicit false

namespace AmdModules

/-- Why a text was not normalized. -/
inductive NormalizeError where
  /-- The text was refused by the parser. -/
  | parse (error : SyntaxError)
  /-- The edits do not fit the text. -/
  | edit (error : EditError)
deriving DecidableEq, Repr

namespace Normalize

variable {σ : Type}

/-- What is reported about the definitions of a text. -/
def events (name : String) (program : Script.Program) : List Event :=
  match (Loader.definitions program.root).length with
  | 0 => [.appendsDefinition name]
  | 1 => []
  | count => [.severalDefinitions count name]

/-- Normalizes a text that is parsed under the given specifier. An empty text stays empty. -/
def textAt (service : Service σ) (profile : Profile) (name : String) (specifier : Url)
    (text : List Char) : Traced σ (Except NormalizeError (List Char)) := do
  if text.isEmpty then return .ok text
  else
    match ← service { specifier, text, mediaType := .javaScript } with
    | .error e => return .error (.parse e)
    | .ok source =>
      (events name source.program).forM Traced.report
      match apply profile name source.text source.program with
      | .ok text => return .ok text
      | .error e => return .error (.edit e)

/-- Normalizes a text that is parsed under the specifier of its module's name, or under a fixed one
when the name leads nowhere. -/
def text (service : Service σ) (profile : Profile) (name : String) (text : List Char) :
    Traced σ (Except NormalizeError (List Char)) := do
  if text.isEmpty then return .ok text
  else
    match ModuleId.resolve ModuleId.defaultBase name with
    | .ok specifier => textAt service profile name specifier text
    | .error e =>
      Traced.report (.unresolved e)
      textAt service profile name ModuleId.fallback text

end Normalize

end AmdModules
