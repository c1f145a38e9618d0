import AmdModules.Url.Basic

/-!
# Paths

A relative path is read segment by segment and added to a path that is there already. A segment of
one dot adds nothing, one of two dots takes the last segment away. In `file` URLs a first segment
such as `C:` names a drive, and two dots do not leave it.
-/

set_option autoImplicit false

namespace AmdModules.Url

/-- What the parser has to know about a scheme. -/
inductive SchemeKind where
  /-- `file`: no user, no port, and drives in the path. -/
  | file
  /-- The schemes of the network, which always have a host. -/
  | special
  /-- All others. -/
  | other
deriving DecidableEq, Repr

/-- The port a scheme uses when none is given. -/
def defaultPort? (scheme : List Char) : Option Nat :=
  if scheme = "http".toList || scheme = "ws".toList then some 80
  else if scheme = "https".toList || scheme = "wss".toList then some 443
  else if scheme = "ftp".toList then some 21
  else none

def SchemeKind.ofScheme (scheme : List Char) : SchemeKind :=
  if scheme = "file".toList then .file
  else if (defaultPort? scheme).isSome then .special
  else .other

/-- Whether a backslash counts as a slash, and the path is never empty. -/
def SchemeKind.isSpecial : SchemeKind → Bool
  | .other => false
  | _ => true

/-- Cuts the front of a text into segments, up to a query or fragment. -/
def takeSegments (special : Bool) : List Char → List (List Char) × List Char
  | [] => ([[]], [])
  | c :: cs =>
    if c = '?' || c = '#' then ([[]], c :: cs)
    else
      let (segments, rest) := takeSegments special cs
      if c = '/' || (special && c = '\\') then ([] :: segments, rest)
      else
        match segments with
        | [] => ([[c]], rest)
        | segment :: segments => ((c :: segment) :: segments, rest)

/-- A letter and a colon or bar. -/
def isDrive : List Char → Bool
  | [letter, mark] => letter.isAlpha && (mark == ':' || mark == '|')
  | _ => false

/-- A letter and a colon. -/
def isNormalDrive : List Char → Bool
  | [letter, ':'] => letter.isAlpha
  | _ => false

/-- Whether a text starts with a drive as a whole segment. -/
def startsWithDrive : List Char → Bool
  | [letter, mark] => isDrive [letter, mark]
  | letter :: mark :: c :: _ => isDrive [letter, mark] && "/\\?#".toList.contains c
  | _ => false

/-- One dot, possibly encoded. -/
def isSingleDot (segment : List Char) : Bool :=
  [".", "%2e"].contains (String.ofList (Text.lower segment))

/-- Two dots, each possibly encoded. -/
def isDoubleDot (segment : List Char) : Bool :=
  ["..", "%2e%2e", "%2e.", ".%2e"].contains (String.ofList (Text.lower segment))

/-- What follows the last slash. -/
def lastSegment (path : List Char) : List Char :=
  (path.reverse.takeWhile (· != '/')).reverse

/-- The path up to its last slash. -/
def dropLastSegment (path : List Char) : List Char :=
  (path.reverse.dropWhile (· != '/')).reverse

def endsWithSlash (path : List Char) : Bool :=
  path.getLast? = some '/'

/-- Takes the last segment away, unless it is the drive of a `file` URL. -/
def popSegment (kind : SchemeKind) (path : List Char) : List Char :=
  if kind = .file && isNormalDrive (lastSegment path) then path else dropLastSegment path

/-- Whether the slash at the end may be taken away with the segment before it. The first slash of a
path stays, and so does the one behind a drive. -/
def canDropSlash (path : List Char) : Bool :=
  let before := path.dropLast
  before.contains '/' && !startsWithDrive (lastSegment before ++ ['/'])

/-- Two dots at the end of a path. -/
def goUp (kind : SchemeKind) (slash : Bool) (path : List Char) : List Char :=
  let path := if endsWithSlash path && canDropSlash path then path.dropLast else path
  let path := popSegment kind path
  if slash && !endsWithSlash path then path ++ ['/'] else path

/-- Adds one segment; `slash` says whether a slash follows it. -/
def addSegment (kind : SchemeKind) (slash : Bool) (path segment : List Char) : List Char :=
  let path :=
    if kind = .file && !segment.isEmpty && isNormalDrive (path.drop 1) then path ++ ['/'] else path
  let segment := encode inPathSet segment
  if isDoubleDot segment then goUp kind slash path
  else if isSingleDot segment then if endsWithSlash path then path else path ++ ['/']
  else
    let namesDrive := kind = .file && path.length = 1 && isDrive segment
    let segment := if namesDrive then segment.take 1 ++ [':'] else segment
    path ++ segment ++ if slash then ['/'] else []

/-- Adds segments, a slash behind each but the last. -/
def addSegments (kind : SchemeKind) (path : List Char) : List (List Char) → List Char
  | [] => path
  | [segment] => addSegment kind false path segment
  | segment :: segments => addSegments kind (addSegment kind true path segment) segments

/-- The path as it is kept: that of a `file` URL starts with exactly one slash. -/
def settlePath (kind : SchemeKind) (path : List Char) : List Char :=
  if kind = .file then '/' :: path.dropWhile (· == '/') else path

/-- Reads a path behind one that is there already. -/
def extendPath (kind : SchemeKind) (path input : List Char) : List Char × List Char :=
  let (segments, rest) := takeSegments kind.isSpecial input
  (settlePath kind (addSegments kind path segments), rest)

/-- The first segment of a path. -/
def firstSegment (path : List Char) : List Char :=
  (path.drop 1).takeWhile (· != '/')

end AmdModules.Url
