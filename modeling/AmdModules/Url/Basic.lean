import AmdModules.Url.Encode

/-!
# URLs

A URL taken apart. Every part holds its text as the URL writes it, percent encoding included, so
that `render` only has to put the parts together again.

A URL without an authority whose path does not start with a slash names something that has no
place in a tree: nothing is relative to it but a fragment.
-/

set_option autoImplicit false

namespace AmdModules

/-- The machine a URL names. -/
inductive Host where
  /-- A name, possibly empty. -/
  | name (text : List Char)
  /-- An address of 32 bits. -/
  | ipv4 (address : Nat)
  /-- An address of eight pieces of 16 bits. -/
  | ipv6 (pieces : List Nat)
deriving DecidableEq, Repr, Inhabited

/-- Who is asked, and where: what stands behind the two slashes. -/
structure Authority where
  username : List Char := []
  password : Option (List Char) := none
  host : Host
  /-- The port, unless it is the usual one of the scheme. -/
  port : Option Nat := none
deriving DecidableEq, Repr, Inhabited

structure Url where
  scheme : List Char
  authority : Option Authority
  path : List Char
  query : Option (List Char) := none
  fragment : Option (List Char) := none
deriving DecidableEq, Repr, Inhabited

/-- Why a text is no URL. -/
inductive UrlError where
  | emptyHost
  | invalidHostName
  | invalidPort
  | invalidIpv4
  | invalidIpv6
  | invalidHostCharacter
  | relativeWithoutBase
  | relativeToRootless
deriving DecidableEq, Repr, Inhabited

/-- What is said about the error. -/
def UrlError.message : UrlError → String
  | .emptyHost => "empty host"
  | .invalidHostName => "invalid international domain name"
  | .invalidPort => "invalid port number"
  | .invalidIpv4 => "invalid IPv4 address"
  | .invalidIpv6 => "invalid IPv6 address"
  | .invalidHostCharacter => "invalid domain character"
  | .relativeWithoutBase => "relative URL without a base"
  | .relativeToRootless => "relative URL with a cannot-be-a-base base"

namespace Host

/-- A number in base sixteen with small digits. -/
def hexText (n : Nat) : List Char :=
  Nat.toDigits 16 n

/-- How many zeros a list starts with. -/
def leadingZeros : List Nat → Nat
  | 0 :: ns => leadingZeros ns + 1
  | _ => 0

/-- The place and length of the first longest run of zeros. -/
def longestZeros (place : Nat) : List Nat → Nat × Nat
  | [] => (place, 0)
  | n :: ns =>
    let here := leadingZeros (n :: ns)
    let later := longestZeros (place + 1) ns
    if later.2 ≤ here then (place, here) else later

/-- An address of eight pieces; the first longest run of two or more zeros is left out. -/
def ipv6Text (pieces : List Nat) : List Char :=
  let colons (pieces : List Nat) := Text.joinWith [':'] (pieces.map hexText)
  let (place, length) := longestZeros 0 pieces
  if length < 2 then colons pieces
  else colons (pieces.take place) ++ [':', ':'] ++ colons (pieces.drop (place + length))

/-- An address of 32 bits as four numbers. -/
def ipv4Text (address : Nat) : List Char :=
  Text.joinWith ['.']
    ([0x1000000, 0x10000, 0x100, 1].map fun unit => Nat.toDigits 10 (address / unit % 256))

def render : Host → List Char
  | .name text => text
  | .ipv4 address => ipv4Text address
  | .ipv6 pieces => ['['] ++ ipv6Text pieces ++ [']']

end Host

/-- An authority as a URL writes it, without the slashes. -/
def Authority.render (a : Authority) : List Char :=
  let password := match a.password with
    | some password => ':' :: password
    | none => []
  let user := a.username ++ password
  (if user.isEmpty then [] else user ++ ['@']) ++ a.host.render
    ++ match a.port with
      | some port => ':' :: Nat.toDigits 10 port
      | none => []

namespace Url

/-- Whether nothing but a fragment is relative to the URL. -/
def isRootless (u : Url) : Bool :=
  u.authority.isNone && u.path.head? != some '/'

/-- A part with the mark in front of it, if there is one. -/
def marked (mark : Char) : Option (List Char) → List Char
  | some part => mark :: part
  | none => []

/-- The URL as a text. Without an authority, a path of two leading slashes would read as one; a dot
keeps it apart. -/
def render (u : Url) : List Char :=
  let front := match u.authority with
    | some a => ['/', '/'] ++ a.render
    | none => if u.path.take 2 = ['/', '/'] then ['/', '.'] else []
  u.scheme ++ [':'] ++ front ++ u.path ++ marked '?' u.query ++ marked '#' u.fragment

instance : ToString Url where
  toString u := String.ofList u.render

end Url

end AmdModules
