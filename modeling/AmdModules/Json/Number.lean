import AmdModules.Decimal.Shortest
import AmdModules.Json.Reader
import AmdModules.Text.Digits

/-!
# Numbers in JSON

A number is kept as an integer when it is written as one and fits into 64 bits, and as a floating
point number otherwise. The digits that fit into 64 bits are multiplied or divided by a power of ten
once; digits beyond them only count.
-/

set_option autoImplicit false

namespace AmdModules.Json

inductive Number where
  | integer (n : Int)
  | float (value : Float)

/-- The largest number of 64 bits. -/
def maxWord : Nat := 0xFFFFFFFFFFFFFFFF

/-- The largest number an exponent may have. -/
def maxExponent : Nat := 0x7FFFFFFF

/-- A power of ten, up to the largest that is finite. -/
def powerOfTen? (n : Nat) : Option Float :=
  if n ≤ 308 then some (Float.ofScientific 1 false n) else none

/-- Scales by a power of ten; `none` when the result is too large. A power that is too small for one
step is applied in several. -/
def scale (f : Float) (exponent : Int) : Nat → Option Float
  | 0 => some f
  | steps + 1 =>
    match powerOfTen? exponent.natAbs with
    | some power =>
      if 0 ≤ exponent then
        let scaled := f * power
        if scaled.isInf then none else some scaled
      else some (f / power)
    | none =>
      if f == 0.0 then some f
      else if 0 ≤ exponent then none
      else scale (f / Float.ofScientific 1 false 308) (exponent + 308) steps

namespace Reader

/-- Whether the next character is a digit. -/
def peekDigit : Reader (Option Nat) := do
  match ← peek with
  | some c => return if Text.isDigit c then some (c.toNat - '0'.toNat) else none
  | none => return none

/-- Whether the next character marks an exponent. -/
def peekExponent : Reader Bool := do
  let c ← peek
  return c == some 'e' || c == some 'E'

/-- Passes over digits and counts them. -/
def skipDigits : Nat → Reader Nat
  | 0 => return 0
  | fuel + 1 => do
    match ← peekDigit with
    | some _ =>
      advance
      return (← skipDigits fuel) + 1
    | none => return 0

/-- Adds digits to a number as long as it does not pass the limit; also answers how many. -/
def digitsUpTo (limit : Nat) : Nat → Nat → Nat → Reader (Nat × Nat)
  | 0, n, count => return (n, count)
  | fuel + 1, n, count => do
    match ← peekDigit with
    | some digit =>
      if limit < n * 10 + digit then return (n, count)
      else
        advance
        digitsUpTo limit fuel (n * 10 + digit) (count + 1)
    | none => return (n, count)

/-- The float of a significand and an exponent. -/
def floatOf (positive : Bool) (significand : Nat) (exponent : Int) : Reader Number := do
  match scale significand.toUInt64.toFloat exponent 16 with
  | none => failHere .numberOutOfRange
  | some f => return .float (if positive then f else -f)

/-- The digits of an exponent behind its first; `none` when they pass the limit, and then the digit
that does is the last one read. -/
def exponentDigits : Nat → Nat → Reader (Option Nat)
  | 0, n => return some n
  | fuel + 1, n => do
    match ← peekDigit with
    | some digit =>
      advance
      if maxExponent < n * 10 + digit then return none else exponentDigits fuel (n * 10 + digit)
    | none => return some n

/-- Reads an exponent, behind the digits. -/
def exponent (positive : Bool) (significand : Nat) (start : Int) : Reader Number := do
  advance
  let sign ← peek
  if sign == some '+' || sign == some '-' then advance
  match ← peek with
  | none => failHere .endInValue
  | some c =>
    if !Text.isDigit c then failAt .invalidNumber
    else
      advance
      match ← exponentDigits (← remaining) (c.toNat - '0'.toNat) with
      | some n => floatOf positive significand (if sign == some '-' then start - n else start + n)
      | none =>
        if significand != 0 && sign != some '-' then failHere .numberOutOfRange
        else
          discard (skipDigits (← remaining))
          return .float (if positive then 0.0 else -0.0)

/-- Reads what may follow all digits: an exponent or nothing. -/
def exponentOrEnd (positive : Bool) (significand : Nat) (start : Int) : Reader Number := do
  if ← peekExponent then exponent positive significand start
  else floatOf positive significand start

/-- Reads a fraction, from its point on. -/
def fraction (positive : Bool) (significand : Nat) (start : Int) : Reader Number := do
  advance
  let (significand, count) ← digitsUpTo maxWord (← remaining) significand 0
  let further ← skipDigits (← remaining)
  if count + further == 0 then
    match ← peek with
    | some _ => failAt .invalidNumber
    | none => failHere .endInValue
  else exponentOrEnd positive significand (start - count)

/-- Reads what follows the digits before the point. -/
def numberFrom (positive : Bool) (significand further : Nat) : Reader Number := do
  if (← peek) == some '.' then fraction positive significand further
  else if ← peekExponent then exponent positive significand further
  else if 0 < further then floatOf positive significand further
  else if positive then return .integer significand
  else if significand == 0 || 0x8000000000000000 < significand then
    return .float (-significand.toUInt64.toFloat)
  else return .integer (-significand)

/-- Reads a number behind its sign. -/
def number (positive : Bool) : Reader Number := do
  match ← peek with
  | none => failHere .endInValue
  | some '0' =>
    advance
    match ← peekDigit with
    | some _ => failAt .invalidNumber
    | none => numberFrom positive 0 0
  | some c =>
    if Text.isDigit c then
      let (significand, _) ← digitsUpTo maxWord (← remaining) 0 0
      let further ← skipDigits (← remaining)
      numberFrom positive significand further
    else failAt .invalidNumber

/-- Passes over an exponent. -/
def skipExponent : Reader Unit := do
  advance
  let sign ← peek
  if sign == some '+' || sign == some '-' then advance
  match ← peekDigit with
  | some _ => discard (skipDigits (← remaining))
  | none => failAt .invalidNumber

/-- Passes over a number behind its sign. -/
def skipNumber : Reader Unit := do
  match ← peekDigit with
  | none => failAt .invalidNumber
  | some first =>
    advance
    if first == 0 then
      match ← peekDigit with
      | some _ => failAt .invalidNumber
      | none => pure ()
    else discard (skipDigits (← remaining))
    if (← peek) == some '.' then
      advance
      if (← skipDigits (← remaining)) == 0 then failAt .invalidNumber
    if ← peekExponent then skipExponent

end Reader

end AmdModules.Json
