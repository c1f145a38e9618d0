import AmdModules.Dependencies
import AmdModules.Module.Basic
import AmdModules.Normalize.Text
import AmdModules.Parsing.Store

/-!
# Normalizing and analyzing modules

The two passes over a module and their combination. Each asks a service for the tree of the module.
`analyze` puts a store of its own in front of the service it is given, so that a text which the
first pass left as it was is parsed once.
-/

set_option autoImplicit false

namespace AmdModules

variable {σ : Type}

/-- Why a module was not analyzed. -/
inductive ModuleError where
  | normalize (name : String) (error : NormalizeError)
  | collect (name : String) (error : SyntaxError)
deriving DecidableEq, Repr

namespace ModuleError

/-- The module the error is about. -/
def moduleName : ModuleError → String
  | .normalize name _ | .collect name _ => name

/-- What is said about the error, in front of what the parser says. -/
def message (diagnostic : String) : ModuleError → String
  | .normalize name _ => "Failed to normalize " ++ name ++ ": " ++ diagnostic
  | .collect name _ => "Failed to collect the dependencies of " ++ name ++ ": " ++ diagnostic

end ModuleError

namespace Module

/-- The dependencies of a module: the ids its text names, then those of its shim. Only scripts are
searched. -/
def findDependencies (service : Service σ) (profile : Profile) (m : Module) :
    Traced σ (Except SyntaxError (List String)) := do
  let mediaType := MediaType.ofUrl m.specifier
  if m.content.isEmpty then
    Traced.report (.skipsEmpty m.name)
    return .ok []
  else if mediaType != .javaScript then
    Traced.report (.skipsMediaType m.name mediaType)
    return .ok []
  else
    match ← service { specifier := m.specifier, text := m.content, mediaType } with
    | .error e => return .error e
    | .ok source =>
      let named := Dependencies.ofTree profile.findNestedDependencies source.program.root
      let needed := ((profile.shim? m.name).map (·.deps)).getD []
      return .ok (Dependencies.addAll named needed)

/-- Normalizes the text of a module. -/
def normalize (service : Service σ) (profile : Profile) (m : Module) :
    Traced σ (Except NormalizeError Unit × Module) := do
  match ← Normalize.textAt service profile m.name m.specifier m.content with
  | .ok content => return (.ok (), { m with content })
  | .error e => return (.error e, m)

/-- Adds what a module depends on to its dependencies. -/
def collect (service : Service σ) (profile : Profile) (m : Module) :
    Traced σ (Except SyntaxError Unit × Module) := do
  match ← m.findDependencies service profile with
  | .ok found =>
    return (.ok (), { m with dependencies := Dependencies.addAll m.dependencies found })
  | .error e => return (.error e, m)

/-- Normalizes a module and, if that succeeds, collects its dependencies. -/
def normalizeAndCollect (service : Service σ) (profile : Profile) (m : Module) :
    Traced σ (Except ModuleError Unit × Module) := do
  let (outcome, m) ← m.normalize service profile
  match outcome with
  | .error e => return (.error (.normalize m.name e), m)
  | .ok () =>
    let (outcome, m) ← m.collect service profile
    match outcome with
    | .error e => return (.error (.collect m.name e), m)
    | .ok () => return (.ok (), m)

/-- Normalizes a module and collects its dependencies with a store that starts empty. -/
def analyze (service : Service σ) (profile : Profile) (m : Module) :
    Traced σ (Except ModuleError Unit × Module) := fun state =>
  let step := m.normalizeAndCollect service.capturing profile ([], state)
  { value := step.value, state := step.state.2, events := step.events }

end Module

end AmdModules
