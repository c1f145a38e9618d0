import AmdModules.Url.Host
import AmdModules.Url.Path

/-!
# Reading URLs

A text is a URL of its own when it starts with a scheme, and otherwise relative to a base. Spaces
and control characters around it are ignored, and so are tabs and line ends anywhere in it.
-/

set_option autoImplicit false

namespace AmdModules.Url

/-- Both kinds of slash. -/
def isSlash (c : Char) : Bool :=
  c == '/' || c == '\\'

/-- A text without the slash it starts with. -/
def dropSlash : List Char → List Char
  | [] => []
  | c :: cs => if isSlash c then cs else c :: cs

/-- The scheme a text starts with, and what follows its colon. -/
def takeScheme? (cs : List Char) : Option (List Char × List Char) :=
  if (cs.head?.map Char.isAlpha).getD false then
    let (name, rest) := cs.span fun c => c.isAlphanum || c == '+' || c == '-' || c == '.'
    match rest with
    | ':' :: rest => some (Text.lower name, rest)
    | _ => none
  else none

/-- Reads the fragment behind its mark. -/
def withFragment (u : Url) (cs : List Char) : Url :=
  { u with fragment := some (encode inFragmentSet cs) }

/-- Reads what may follow a path: a query, a fragment, both or nothing. -/
def withQueryAndFragment (u : Url) (rest : List Char) : Url :=
  let bare := { u with query := none, fragment := none }
  match rest with
  | '?' :: cs =>
    let (query, rest) := cs.span (· != '#')
    let inSet :=
      if (SchemeKind.ofScheme u.scheme).isSpecial then inSpecialQuerySet else inQuerySet
    let asked := { bare with query := some (encode inSet query) }
    match rest with
    | '#' :: cs => asked.withFragment cs
    | _ => asked
  | '#' :: cs => bare.withFragment cs
  | _ => bare

/-- Whether a character ends the authority. -/
def endsAuthority (kind : SchemeKind) (c : Char) : Bool :=
  c == '/' || c == '?' || c == '#' || (kind.isSpecial && c == '\\')

/-- The text before and after the last at sign, if there is one. -/
def splitLastAt? (cs : List Char) : Option (List Char × List Char) :=
  match cs.reverse.span (· != '@') with
  | (after, '@' :: before) => some (before.reverse, after.reverse)
  | _ => none

/-- Reads user name and password in front of the host. An empty password counts as none. -/
def takeUser (kind : SchemeKind) (cs : List Char) :
    Except UrlError (List Char × Option (List Char) × List Char) :=
  let (front, rest) := cs.span fun c => !endsAuthority kind c
  match splitLastAt? front with
  | none => .ok ([], none, cs)
  | some ([], []) => if rest.isEmpty then .ok ([], none, []) else .error .emptyHost
  | some (user, host) =>
    match Text.splitFirst? ':' user with
    | none => .ok (encode inUserSet user, none, host ++ rest)
    | some (name, password) =>
      .ok (encode inUserSet name,
        if password.isEmpty then none else some (encode inUserSet password), host ++ rest)

/-- Cuts off the text of a host. A colon in brackets belongs to it. -/
def takeHostText (kind : SchemeKind) (inBrackets : Bool) : List Char → List Char × List Char
  | [] => ([], [])
  | c :: cs =>
    if endsAuthority kind c || (c == ':' && !inBrackets) then ([], c :: cs)
    else
      let (host, rest) := takeHostText kind (c == '[' || (inBrackets && c != ']')) cs
      (c :: host, rest)

/-- Reads a port behind its colon. The usual port of the scheme counts as none. -/
def takePort (scheme cs : List Char) : Except UrlError (Option Nat × List Char) :=
  let (digits, rest) := cs.span Text.isDigit
  let port := (Text.number? 10 digits).getD 0
  let ended := match rest with
    | [] => true
    | c :: _ => "/\\?#".toList.contains c
  if 65535 < port || !ended then .error .invalidPort
  else if digits.isEmpty || defaultPort? scheme = some port then .ok (none, rest)
  else .ok (some port, rest)

/-- Reads host and port. -/
def takeHostAndPort (scheme : List Char) (kind : SchemeKind) (cs : List Char) :
    Except UrlError (Host × Option Nat × List Char) := do
  let (text, rest) := takeHostText kind false cs
  if text.isEmpty && (kind.isSpecial || rest.head? = some ':') then throw .emptyHost
  let host ← if kind.isSpecial then Host.parse text else Host.parsePlain text
  match rest with
  | ':' :: rest =>
    let (port, rest) ← takePort scheme rest
    return (host, port, rest)
  | _ => return (host, none, rest)

/-- Reads the path behind an authority. -/
def takeRootedPath (kind : SchemeKind) (cs : List Char) : List Char × List Char :=
  if kind.isSpecial then extendPath kind ['/'] (dropSlash cs)
  else
    match cs with
    | [] | '?' :: _ | '#' :: _ => ([], cs)
    | '/' :: _ => extendPath kind [] cs
    | _ => extendPath kind ['/'] cs

/-- Reads a URL behind the two slashes in front of its authority. -/
def parseAuthority (scheme cs : List Char) : Except UrlError Url := do
  let kind := SchemeKind.ofScheme scheme
  let (username, password, rest) ← takeUser kind cs
  let (host, port, rest) ← takeHostAndPort scheme kind rest
  if host = .name [] && (!username.isEmpty || password.isSome) then throw .emptyHost
  let (path, rest) := takeRootedPath kind rest
  let authority : Authority := { username, password, host, port }
  return withQueryAndFragment { scheme, authority := some authority, path } rest

/-- A URL of the local file system: an authority without a host. -/
def localFile (path : List Char) : Url :=
  { scheme := "file".toList, authority := some { host := .name [] }, path }

/-- Reads a `file` URL behind two slashes. A drive in place of the host belongs to the path, and a
host in front of a drive is dropped. -/
def parseFileHost (cs : List Char) : Except UrlError Url := do
  let withoutHost (cs : List Char) : Url :=
    let (path, rest) := extendPath .file ['/'] cs
    withQueryAndFragment (localFile path) rest
  let (text, rest) := cs.span fun c => !"/\\?#".toList.contains c
  if isDrive text then return withoutHost cs
  else if text.isEmpty then return withoutHost rest
  else
    let host ← Host.parse text
    if host = .name "localhost".toList then return withoutHost rest
    else
      let (segments, rest) := takeSegments true (dropSlash rest)
      let path := addSegments .file ['/'] segments
      let host := if isNormalDrive (firstSegment path) then .name [] else host
      return withQueryAndFragment
        { localFile (settlePath .file path) with authority := some { host } } rest

/-- Reads a `file` URL behind a single slash, which keeps the drive or host of the base. -/
def parseFileRoot (base : Option Url) (cs : List Char) : Url :=
  let start : Url :=
    if startsWithDrive (cs.drop 1) then localFile []
    else
      match base with
      | none => localFile []
      | some base =>
        let drive := firstSegment base.path
        if isNormalDrive drive then localFile ('/' :: drive)
        else
          let host := (base.authority.map (·.host)).getD (.name [])
          { localFile [] with authority := some { host } }
  let (path, rest) := extendPath .file start.path cs
  withQueryAndFragment { start with path } rest

/-- Reads what is relative to a base, when it starts with neither a slash nor a scheme. -/
def parseBeside (kind : SchemeKind) (base : Url) (cs : List Char) : Url :=
  match cs with
  | [] => { base with fragment := none }
  | '?' :: _ => base.withQueryAndFragment cs
  | '#' :: rest => base.withFragment rest
  | _ =>
    let folder := popSegment kind base.path
    let (path, rest) := extendPath kind (if folder.isEmpty then ['/'] else folder) cs
    withQueryAndFragment { base with path } rest

/-- Reads a `file` URL behind its scheme, or a text relative to one. -/
def parseFile (base : Option Url) (cs : List Char) : Except UrlError Url :=
  match cs with
  | c :: d :: rest =>
    if isSlash c && isSlash d then parseFileHost rest
    else if isSlash c then .ok (parseFileRoot base cs)
    else beside base cs
  | [c] => if isSlash c then .ok (parseFileRoot base cs) else beside base cs
  | [] => beside base cs
where
  beside (base : Option Url) (cs : List Char) : Except UrlError Url :=
    match base with
    | some base =>
      if startsWithDrive cs then .ok (fromRoot cs) else .ok (parseBeside .file base cs)
    | none => .ok (fromRoot cs)
  fromRoot (cs : List Char) : Url :=
    let (path, rest) := extendPath .file ['/'] cs
    withQueryAndFragment (localFile path) rest

/-- Reads what is relative to a base that is no `file` URL. -/
def parseRelative (base : Url) (cs : List Char) : Except UrlError Url :=
  let kind := SchemeKind.ofScheme base.scheme
  match cs with
  | c :: rest =>
    if isSlash c then
      if (rest.head?.map isSlash).getD false then
        parseAuthority base.scheme
          (if cs.take 2 = ['/', '/'] then cs.drop 2 else cs.dropWhile isSlash)
      else
        let (path, rest) := extendPath kind ['/'] rest
        .ok (withQueryAndFragment { base with path } rest)
    else .ok (parseBeside kind base cs)
  | [] => .ok (parseBeside kind base [])

/-- Reads a URL behind a scheme that is not special. -/
def parseOther (scheme cs : List Char) : Except UrlError Url :=
  match cs with
  | '/' :: '/' :: rest => parseAuthority scheme rest
  | '/' :: rest =>
    let (path, rest) := extendPath .other ['/'] rest
    .ok (withQueryAndFragment { scheme, authority := none, path } rest)
  | _ =>
    let (path, rest) := cs.span fun c => c != '?' && c != '#'
    .ok (withQueryAndFragment { scheme, authority := none, path := encode isUnsafe path } rest)

/-- Reads a URL behind its scheme. -/
def parseWithScheme (base : Option Url) (scheme cs : List Char) : Except UrlError Url :=
  match SchemeKind.ofScheme scheme with
  | .file => parseFile (base.filter (·.scheme = scheme)) cs
  | .special =>
    match base with
    | some base =>
      if base.scheme = scheme && (cs.takeWhile isSlash).length < 2 then parseRelative base cs
      else parseAuthority scheme (cs.dropWhile isSlash)
    | none => parseAuthority scheme (cs.dropWhile isSlash)
  | .other => parseOther scheme cs

/-- Removes what is ignored: spaces and control characters at both ends, tabs and line ends
everywhere. -/
def clean (cs : List Char) : List Char :=
  let isBlank (c : Char) : Bool := c.toNat ≤ 0x20
  ((cs.dropWhile isBlank).reverse.dropWhile isBlank).reverse.filter fun c =>
    !(c == '\t' || c == '\n' || c == '\r')

/-- Reads a URL, relative to a base if there is one. -/
def parseFrom (base : Option Url) (text : List Char) : Except UrlError Url :=
  let cs := clean text
  match takeScheme? cs with
  | some (scheme, rest) => parseWithScheme base scheme rest
  | none =>
    match base with
    | none => .error .relativeWithoutBase
    | some base =>
      match cs with
      | '#' :: rest => .ok (base.withFragment rest)
      | _ =>
        if base.isRootless then .error .relativeToRootless
        else if SchemeKind.ofScheme base.scheme = .file then parseFile (some base) cs
        else parseRelative base cs

/-- Reads a URL that is relative to nothing. -/
def parse (text : List Char) : Except UrlError Url :=
  parseFrom none text

/-- Reads a text relative to a URL. -/
def join (base : Url) (text : List Char) : Except UrlError Url :=
  parseFrom (some base) text

/-- Replaces the path. A path in a URL without a root cannot start with a slash. -/
def setPath (u : Url) (path : List Char) : Url :=
  if u.isRootless then
    match path with
    | '/' :: rest => { u with path := "%2F".toList ++ encode isUnsafe rest }
    | _ => { u with path := encode isUnsafe path }
  else
    { u with path := (extendPath (SchemeKind.ofScheme u.scheme) [] path).1 }

/-- The URL with a slash at the end of its path, so that what is joined to it keeps the last
segment. -/
def withTrailingSlash (u : Url) : Url :=
  if endsWithSlash u.path then u else u.setPath (u.path ++ ['/'])

end AmdModules.Url
