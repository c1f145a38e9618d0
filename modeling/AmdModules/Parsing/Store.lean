import AmdModules.Parsing.Service

/-!
# Remembering parsed texts

A store keeps one parsed text for each specifier, the last one. `capturing` puts a store in front of
another service. What is in the store is used again only for the very same text and media type, so a
text that has been edited since is parsed anew.
-/

set_option autoImplicit false

namespace AmdModules

/-- Parsed texts by specifier. -/
abbrev Store := List (Url × ParsedSource)

namespace Store

/-- What is kept for a specifier. -/
def get? (store : Store) (specifier : Url) : Option ParsedSource :=
  store.lookup specifier

/-- Forgets what is kept for a specifier. -/
def erase (store : Store) (specifier : Url) : Store :=
  store.filter (·.1 != specifier)

/-- Keeps a parsed text in place of the one before. -/
def insert (store : Store) (specifier : Url) (source : ParsedSource) : Store :=
  (specifier, source) :: store.erase specifier

/-- What is kept, if it answers the request. -/
def answer? (store : Store) (request : ParseRequest) : Option ParsedSource :=
  (store.get? request.specifier).filter fun source =>
    source.mediaType = request.mediaType && source.text = request.text

end Store

/-- A service that asks `inner` only for what the store does not hold. A refused text leaves the
store as it was. -/
def Service.capturing {σ : Type} (inner : Service σ) : Service (Store × σ) :=
  fun request (store, state) =>
    match store.answer? request with
    | some source =>
      { value := .ok source
        state := (store, state)
        events := [.reusesParse request.specifier] }
    | none =>
      let step := inner request state
      let store := match step.value with
        | .ok source => store.insert request.specifier source
        | .error _ => store
      { value := step.value, state := (store, step.state), events := step.events }

/-- A service that leaves the store alone. -/
def Service.besideStore {σ : Type} (inner : Service σ) : Service (Store × σ) :=
  fun request (store, state) =>
    let step := inner request state
    { value := step.value, state := (store, step.state), events := step.events }

end AmdModules
