import AmdModules.Text.Digits
import AmdModules.Text.Split

/-!
# Percent encoding

A part of a URL writes some characters as the bytes of their UTF-8 form, each as a percent sign and
two digits. Which characters these are depends on the part. Control characters and everything
outside ASCII are encoded in every part; a percent sign never is, so encoding twice changes nothing.
-/

set_option autoImplicit false

namespace AmdModules.Url

/-- Characters that no part of a URL holds as they are. -/
def isUnsafe (c : Char) : Bool :=
  c.toNat < 0x20 || 0x7F ≤ c.toNat

/-- What a fragment encodes. -/
def inFragmentSet (c : Char) : Bool :=
  isUnsafe c || " \"<>`".toList.contains c

/-- What a path encodes. -/
def inPathSet (c : Char) : Bool :=
  inFragmentSet c || "#?\x7b\x7d".toList.contains c

/-- What a user name or password encodes. -/
def inUserSet (c : Char) : Bool :=
  inPathSet c || "/:;=@[\\]^|".toList.contains c

/-- What a query encodes. -/
def inQuerySet (c : Char) : Bool :=
  isUnsafe c || " \"#<>".toList.contains c

/-- What the query of a special scheme encodes. -/
def inSpecialQuerySet (c : Char) : Bool :=
  inQuerySet c || c == '\x27'

/-- A digit of base sixteen, in its large form. -/
def hexDigit (n : Nat) : Char :=
  if n < 10 then Char.ofNat ('0'.toNat + n) else Char.ofNat ('A'.toNat + (n - 10))

/-- A byte as a percent sign and two digits. -/
def encodeByte (b : UInt8) : List Char :=
  ['%', hexDigit (b.toNat / 16), hexDigit (b.toNat % 16)]

/-- Encodes the characters in the set. -/
def encode (inSet : Char → Bool) : List Char → List Char
  | [] => []
  | c :: cs =>
    (if inSet c then (String.utf8EncodeChar c).flatMap encodeByte else [c]) ++ encode inSet cs

/-- Decodes what is encoded. A percent sign without two digits stands for itself. Each encoded byte
becomes the character of its number, which is right for ASCII. -/
def decode : List Char → List Char
  | [] => []
  | '%' :: a :: b :: cs =>
    match Text.hexNumber? [a, b] with
    | some n => Char.ofNat n :: decode cs
    | none => '%' :: decode (a :: b :: cs)
  | c :: cs => c :: decode cs

end AmdModules.Url
