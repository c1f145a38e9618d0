import AmdModules.Unicode.Unshown

/-!
# Texts in messages

A text that a message quotes is shown so that it can be read: quotes and backslashes are escaped,
and characters that cannot be seen are named.
-/

set_option autoImplicit false

namespace AmdModules.Text

/-- One character of a quoted text. -/
def spellChar (c : Char) : List Char :=
  if c == '\t' then ['\\', 't']
  else if c == '\n' then ['\\', 'n']
  else if c == '\r' then ['\\', 'r']
  else if c == '\x00' then ['\\', '0']
  else if c == '\x22' || c == '\\' then ['\\', c]
  else if c.toNat < 0x20 || (0x7F ≤ c.toNat && Unicode.unshownRanges.has c) then
    ['\\', 'u', '\x7b'] ++ Nat.toDigits 16 c.toNat ++ ['\x7d']
  else [c]

/-- A text in quotes. -/
def spell (text : String) : String :=
  "\"" ++ String.ofList (text.toList.flatMap spellChar) ++ "\""

end AmdModules.Text
