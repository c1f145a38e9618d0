import AmdModules.Event
import AmdModules.Profile.Basic
import AmdModules.Shim.Json

/-!
# Loading and saving build profiles

A profile is written as a JSON object. It is read from an object in which every key may be missing,
no known key may be repeated and unknown keys are passed over, or from a list of its values in
order.
-/

set_option autoImplicit false

namespace AmdModules.Profile

open Json (Reader)

/-- Reads a URL. -/
def readUrl : Reader Url := Reader.located do
  match ← Reader.peekValue with
  | '\x22' =>
    let text ← Reader.text
    match Url.parse text.toList with
    | .ok url => return url
    | .error e => Reader.unwanted (e.message ++ ": " ++ Text.spell text)
  | _ => Reader.mismatch "a string representing an URL"

/-- Reads shims by name. -/
def readShims (depth : Nat) : Reader Shims := Reader.located do
  match ← Reader.peekValue with
  | '\x7b' =>
    Reader.objectOf depth [] fun shims name => do
      Reader.colon
      let shim ← Shim.read (depth - 1)
      return shims.insert name shim
  | _ => Reader.mismatch "a map"

/-- What has been read of a profile. -/
structure Partial where
  baseUrl : Option (Option Url) := none
  useStrict : Option Bool := none
  findNestedDependencies : Option Bool := none
  shims : Option Shims := none

/-- The profile with what was not said at its usual value. -/
def Partial.complete (p : Partial) : Profile :=
  { baseUrl := p.baseUrl.getD none
    useStrict := p.useStrict.getD false
    findNestedDependencies := p.findNestedDependencies.getD false
    shims := p.shims.getD [] }

/-- Reads the value of a key that must not be repeated. -/
def once {α : Type} (key : String) (seen : Option α) (read : Reader α) : Reader (Option α) := do
  if seen.isSome then Reader.unwanted ("duplicate field `" ++ key ++ "`")
  else
    Reader.colon
    return some (← read)

/-- Reads the member of a key. -/
def readMember (depth : Nat) (p : Partial) (key : String) : Reader Partial := do
  match key with
  | "baseUrl" =>
    let found ← once key p.baseUrl (Reader.optional readUrl)
    return { p with baseUrl := found }
  | "useStrict" =>
    let found ← once key p.useStrict Reader.bool
    return { p with useStrict := found }
  | "findNestedDependencies" =>
    let found ← once key p.findNestedDependencies Reader.bool
    return { p with findNestedDependencies := found }
  | "shim" =>
    let found ← once key p.shims (readShims depth)
    return { p with shims := found }
  | _ =>
    Reader.colon
    Reader.skipValue (2 * (← Reader.remaining) + 2)
    return p

/-- Reads the next item of a list, if there is one. -/
def readItem {α : Type} (first : Bool) (read : Reader α) : Reader (Option α) := do
  match ← Reader.items read 1 first with
  | [item] => return some item
  | _ => return none

/-- Reads the values of a profile in order. -/
def readItems (depth : Nat) : Reader Partial := do
  let baseUrl ← readItem true (Reader.optional readUrl)
  let useStrict ← readItem false Reader.bool
  let findNestedDependencies ← readItem false Reader.bool
  let shims ← readItem false (readShims depth)
  return { baseUrl, useStrict, findNestedDependencies, shims }

/-- Reads a profile. -/
def read (depth : Nat) : Reader Profile := Reader.located do
  let found ← do
    match ← Reader.peekValue with
    | '[' => Reader.listOf depth fun _ => readItems (depth - 1)
    | '\x7b' => Reader.objectOf depth { } (readMember (depth - 1))
    | _ => Reader.mismatch "struct BuildConfig"
  return found.complete

/-- The profile a text stands for. Its base gets a slash at the end. -/
def parse (text : List Char) : Except Json.Fault Profile :=
  ((read Reader.depthLimit).run text).map fun p =>
    { p with baseUrl := p.baseUrl.map Url.withTrailingSlash }

/-- What is said about a text that is no profile. -/
def faultMessage (e : Json.Fault) : String :=
  "Invalid build profile: " ++ e.message

/-- The text of shims by name. -/
def renderShims (shims : Shims) : List Char :=
  Json.writeObject (shims.map fun (name, shim) => (name, some shim.render))

/-- The text of a profile. Without a base or shims their keys are left out. -/
def render (p : Profile) : List Char :=
  Json.writeObject
    [("baseUrl", p.baseUrl.map fun url => Json.writeText (toString url)),
      ("useStrict", some (Json.writeBool p.useStrict)),
      ("findNestedDependencies", some (Json.writeBool p.findNestedDependencies)),
      ("shim", if p.shims.isEmpty then none else some (renderShims p.shims))]

/-- Reads a profile and reports it. -/
def load {σ : Type} (text : List Char) : Traced σ (Except Json.Fault Profile) := do
  match parse text with
  | .ok profile =>
    Traced.report (.loadedProfile profile.shims.length)
    return .ok profile
  | .error e => return .error e

end AmdModules.Profile
