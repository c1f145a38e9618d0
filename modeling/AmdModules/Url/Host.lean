import AmdModules.Url.Basic

/-!
# Hosts

Reading the host of a URL. Special schemes know names and addresses; the host of any other scheme is
taken as it is. Names are read in ASCII only: a name with another character in it, encoded or not,
is refused.
-/

set_option autoImplicit false

namespace AmdModules.Host

open Text (number?)

/-- A part of an address of 32 bits: base eight behind a zero, base sixteen behind `0x`. -/
def ipv4Number? : List Char → Option Nat
  | [] => none
  | '0' :: 'x' :: cs | '0' :: 'X' :: cs => if cs.isEmpty then some 0 else number? 16 cs
  | '0' :: c :: cs => number? 8 (c :: cs)
  | cs => number? 10 cs

/-- The parts of a name, without an empty last one. -/
def labels (cs : List Char) : List (List Char) :=
  let parts := Text.splitOn '.' cs
  if parts.getLast? = some [] then parts.dropLast else parts

/-- Whether a name has to be read as an address because its last part is a number. -/
def endsInNumber (cs : List Char) : Bool :=
  match (labels cs).getLast? with
  | none => false
  | some last => (!last.isEmpty && last.all Char.isDigit) || (ipv4Number? last).isSome

/-- Puts the leading parts of an address in front of its last part. -/
def ipv4Sum : Nat → List Nat → Nat
  | _, [] => 0
  | _, [last] => last
  | place, n :: ns => n * Nat.pow 256 place + ipv4Sum (place - 1) ns

/-- Reads an address of 32 bits. All parts but the last are one byte; the last fills what is
left. -/
def parseIpv4 (cs : List Char) : Except UrlError Host :=
  let parts := labels cs
  if 4 < parts.length then .error .invalidIpv4
  else
    match parts.mapM ipv4Number? with
    | none => .error .invalidIpv4
    | some numbers =>
      let limit := Nat.pow 256 (5 - numbers.length)
      if numbers.dropLast.any (255 < ·) || limit ≤ numbers.getLastD 0 then .error .invalidIpv4
      else .ok (.ipv4 (ipv4Sum 3 numbers))

/-- A part of a dotted address inside one of eight pieces: no leading zero, at most 255. -/
def dottedByte? (cs : List Char) : Option Nat := do
  if 1 < cs.length && cs.head? == some '0' then none
  else
    let n ← number? 10 cs
    if n ≤ 255 then some n else none

/-- The last piece of an address: four digits, or a dotted address that makes two pieces. -/
def lastPieces? (cs : List Char) : Option (List Nat) :=
  match (Text.splitOn '.' cs).mapM dottedByte? with
  | some [a, b, c, d] => some [a * 256 + b, c * 256 + d]
  | _ => if cs.length ≤ 4 then (number? 16 cs).map fun n => [n] else none

/-- Pieces separated by colons; only the last may be dotted. -/
def pieces? : List (List Char) → Option (List Nat)
  | [] => some []
  | [last] => lastPieces? last
  | piece :: others => do
    let n ← if piece.length ≤ 4 then number? 16 piece else none
    return n :: (← pieces? others)

/-- The text before and after the first double colon. -/
def splitDouble? : List Char → Option (List Char × List Char)
  | ':' :: ':' :: cs => some ([], cs)
  | c :: cs => (splitDouble? cs).map fun (before, after) => (c :: before, after)
  | [] => none

/-- The pieces of a part of an address; an empty part has none. -/
def piecesOf? (cs : List Char) : Option (List Nat) :=
  if cs.isEmpty then some [] else pieces? (Text.splitOn ':' cs)

/-- Reads an address of eight pieces; a double colon stands for one or more zeros. -/
def parseIpv6 (cs : List Char) : Except UrlError Host :=
  let found : Option (List Nat) :=
    match splitDouble? cs with
    | some (before, after) => do
      if before.contains '.' then none
      else
        let front ← piecesOf? before
        let back ← piecesOf? after
        if front.length + back.length ≤ 7 then
          some (front ++ List.replicate (8 - front.length - back.length) 0 ++ back)
        else none
    | none => do
      let all ← piecesOf? cs
      if all.length = 8 then some all else none
  match found with
  | some pieces => .ok (.ipv6 pieces)
  | none => .error .invalidIpv6

/-- Reads an address in brackets. -/
def parseBracketed (cs : List Char) : Except UrlError Host :=
  if cs.getLast? = some ']' then parseIpv6 (cs.drop 1).dropLast else .error .invalidIpv6

/-- Characters that a host name cannot hold. -/
def isForbidden (c : Char) : Bool :=
  c.toNat ≤ 0x20 || 0x7F ≤ c.toNat || "#%/:<>?@[\\]^|".toList.contains c

/-- Reads the host of a special scheme. -/
def parse (cs : List Char) : Except UrlError Host :=
  if cs.head? = some '[' then parseBracketed cs
  else
    let name := Text.lower (Url.decode cs)
    if name.any isForbidden then .error .invalidHostName
    else if name.isEmpty then .error .emptyHost
    else if endsInNumber name then parseIpv4 name
    else .ok (.name name)

/-- Reads the host of any other scheme. -/
def parsePlain (cs : List Char) : Except UrlError Host :=
  if cs.head? = some '[' then parseBracketed cs
  else if cs.any fun c => "\x00\t\n\r #/:<>?@[\\]^|".toList.contains c then
    .error .invalidHostCharacter
  else .ok (.name (Url.encode Url.isUnsafe cs))

end AmdModules.Host
