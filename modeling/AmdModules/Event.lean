import AmdModules.MediaType
import AmdModules.ModuleId

/-!
# Events

What happens on the way and is worth a line in a log. Operations report events beside their results
(`Traced`), so that what is logged is part of what an operation does.
-/

set_option autoImplicit false

namespace AmdModules

inductive Event where
  /-- A text without a `define` call gets one. -/
  | appendsDefinition (name : String)
  /-- A text has more than one `define` call. -/
  | severalDefinitions (count : Nat) (name : String)
  /-- The name of a module leads nowhere. -/
  | unresolved (error : SpecifierError)
  /-- A module without a text is not searched. -/
  | skipsEmpty (name : String)
  /-- A module that is no script is not searched. -/
  | skipsMediaType (name : String) (mediaType : MediaType)
  /-- A text that has been parsed before is not parsed again. -/
  | reusesParse (specifier : Url)
  /-- A profile was read. -/
  | loadedProfile (shims : Nat)
deriving DecidableEq, Repr

/-- The line of an event. -/
def Event.message : Event → String
  | .appendsDefinition name => "No define call in " ++ name ++ ", appending a shim"
  | .severalDefinitions count name =>
    "Found " ++ toString count ++ " define calls in " ++ name
  | .unresolved error => error.message ++ ", parsing as " ++ toString ModuleId.fallback
  | .skipsEmpty name => "Skipping empty module " ++ name
  | .skipsMediaType name mediaType => "Skipping " ++ name ++ " with media type " ++ mediaType.name
  | .reusesParse specifier => "Reusing parsed source for " ++ toString specifier
  | .loadedProfile shims => "Loaded build profile with " ++ toString shims ++ " shim(s)"

/-- The end of an operation: its result, the state it leaves and what it reported. -/
structure Step (σ α : Type) where
  value : α
  state : σ
  events : List Event := []

/-- An operation that works on a state and reports events. -/
def Traced (σ α : Type) : Type :=
  σ → Step σ α

namespace Traced

variable {σ α β : Type}

instance : Monad (Traced σ) where
  pure a := fun s => { value := a, state := s }
  bind p f := fun s =>
    let first := p s
    let second := f first.value first.state
    { second with events := first.events ++ second.events }

/-- Reports an event. -/
def report (e : Event) : Traced σ Unit := fun s =>
  { value := (), state := s, events := [e] }

end Traced

end AmdModules
