import AmdModules.Module.Analyze

/-!
# Transformers

A transformer changes the text of the modules it applies to. Several are run one after the other,
and the first that fails ends the run; the text is then what that one has left of it.
-/

set_option autoImplicit false

namespace AmdModules

variable {σ : Type}

/-- Why a transformer failed. -/
inductive TransformError where
  | normalize (error : NormalizeError)
  /-- A failure that the transformer explains itself. -/
  | failed (message : String)
deriving DecidableEq, Repr

/-- What a transformer makes of a text. -/
inductive Transformed where
  | ok (text : List Char)
  /-- It failed, and the text is as it was. -/
  | error (cause : TransformError)
  /-- It failed when it had changed the text already. -/
  | spoiled (cause : TransformError) (text : List Char)
deriving DecidableEq, Repr

/-- A change of module texts. -/
structure Transformer (σ : Type) where
  /-- Whether it runs for the module at a place. -/
  appliesTo : Url → Bool
  /-- What it makes of the text of the module of a name. -/
  transform : Profile → String → List Char → Traced σ Transformed

namespace Transformer

/-- Normalizes every module. -/
def normalizing (service : Service σ) : Transformer σ where
  appliesTo _ := true
  transform profile name text := do
    match ← Normalize.text service profile name text with
    | .ok text => return .ok text
    | .error e => return .error (.normalize e)

/-- Runs the transformers that apply to a place, in order. -/
def runAll (profile : Profile) (specifier : Url) (name : String) (text : List Char) :
    List (Transformer σ) → Traced σ (Except TransformError Unit × List Char)
  | [] => return (.ok (), text)
  | t :: ts => do
    if t.appliesTo specifier then
      match ← t.transform profile name text with
      | .ok text => runAll profile specifier name text ts
      | .error cause => return (.error cause, text)
      | .spoiled cause text => return (.error cause, text)
    else runAll profile specifier name text ts

end Transformer

end AmdModules
