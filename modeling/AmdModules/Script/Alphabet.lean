import AmdModules.Text.Digits
import AmdModules.Unicode.Letter
import AmdModules.Unicode.Mark

/-!
# Characters of a script

Which characters end a line, separate tokens, and start or continue a name. ASCII is decided
first; the tables are for the rest.
-/

set_option autoImplicit false

namespace AmdModules.Script

open Text

/-- Line feed, carriage return, line separator and paragraph separator. -/
def isLineEnd (c : Char) : Bool :=
  c == '\n' || c == '\r' || c == '\u2028' || c == '\u2029'

/-- Characters that separate tokens on one line. -/
def isSpace (c : Char) : Bool :=
  c == ' ' || c == '\t' || c == '\x0b' || c == '\x0c' || c == '\u00a0' || c == '\ufeff'
    || c == '\u1680' || ('\u2000' ≤ c && c ≤ '\u200a') || c == '\u202f' || c == '\u205f'
    || c == '\u3000'

/-- Whether a name may start with `c`. -/
def isNameStart (c : Char) : Bool :=
  if c.toNat < 128 then
    ('a' ≤ c && c ≤ 'z') || ('A' ≤ c && c ≤ 'Z') || c == '$' || c == '_'
  else
    (Unicode.letterRanges.has c && c != '\u2e2f')
      || c == '\u1885' || c == '\u1886' || c == '\u2118' || c == '\u212e'
      || c == '\u309b' || c == '\u309c'

/-- Whether a name may go on with `c`. -/
def isNamePart (c : Char) : Bool :=
  if c.toNat < 128 then isNameStart c || isDigit c
  else
    isNameStart c
      || (Unicode.markRanges.has c && !Unicode.enclosingMarkRanges.has c)
      || Unicode.digitRanges.has c || Unicode.connectorRanges.has c
      || c == '\u00b7' || c == '\u0387' || ('\u1369' ≤ c && c ≤ '\u1371') || c == '\u19da'
      || c == '\u30fb' || c == '\uff65' || c == '\u200c' || c == '\u200d'

end AmdModules.Script
