import AmdModules.Script.Program
import AmdModules.Url.Basic

/-!
# Media types

What kind of source a URL names. The extension of the last path segment decides; a `data` URL says
it itself. Only `JavaScript` is ever searched for dependencies.
-/

set_option autoImplicit false

namespace AmdModules

inductive MediaType where
  | javaScript
  | jsx
  | mjs
  | cjs
  | typeScript
  | mts
  | cts
  | dts
  | dmts
  | dcts
  | tsx
  | css
  | json
  | wasm
  | sourceMap
  | unknown
deriving DecidableEq, Repr, Inhabited

namespace MediaType

/-- The name of a media type. -/
def name : MediaType → String
  | .javaScript => "JavaScript"
  | .jsx => "JSX"
  | .mjs => "Mjs"
  | .cjs => "Cjs"
  | .typeScript => "TypeScript"
  | .mts => "Mts"
  | .cts => "Cts"
  | .dts => "Dts"
  | .dmts => "Dmts"
  | .dcts => "Dcts"
  | .tsx => "TSX"
  | .css => "Css"
  | .json => "Json"
  | .wasm => "Wasm"
  | .sourceMap => "SourceMap"
  | .unknown => "Unknown"

/-- The media type of an extension; `declares` says whether the name marks a file of
declarations. -/
def ofExtension (extension : List Char) (declares : Bool) : MediaType :=
  match String.ofList (Text.lower extension) with
  | "js" => .javaScript
  | "jsx" => .jsx
  | "mjs" => .mjs
  | "cjs" => .cjs
  | "ts" => if declares then .dts else .typeScript
  | "mts" => if declares then .dmts else .mts
  | "cts" => if declares then .dcts else .cts
  | "tsx" => .tsx
  | "css" => .css
  | "json" => .json
  | "wasm" => .wasm
  | "map" => .sourceMap
  | _ => .unknown

/-- The media type of a file name. -/
def ofFileName (fileName : List Char) : MediaType :=
  let parts := Text.splitOn '.' fileName
  if parts.length < 2 then .unknown
  else ofExtension (parts.getLastD []) ((parts.drop 1).dropLast.contains ['d'])

/-- The media type of a content type, without its parameters. -/
def ofContentType (contentType : List Char) : MediaType :=
  match String.ofList (Text.lower contentType) with
  | "application/javascript" | "text/javascript" | "application/ecmascript" | "text/ecmascript"
  | "application/x-javascript" | "application/node" => .javaScript
  | "application/typescript" | "text/typescript" | "video/vnd.dlna.mpeg-tts" | "video/mp2t"
  | "application/x-typescript" => .typeScript
  | "text/jscript" | "text/jsx" => .jsx
  | "text/tsx" => .tsx
  | "application/json" | "text/json" => .json
  | "application/wasm" => .wasm
  | "text/css" => .css
  | _ => .unknown

/-- A text without the spaces around it. -/
def trim (cs : List Char) : List Char :=
  ((cs.dropWhile (· == ' ')).reverse.dropWhile (· == ' ')).reverse

/-- The media type of a `data` URL: its content type, which ends at the first comma. -/
def ofData (u : Url) : MediaType :=
  match Text.splitFirst? ',' (({ u with fragment := none } : Url).render.drop 5) with
  | none => .unknown
  | some (header, _) => ofContentType (trim (header.takeWhile (· != ';')))

/-- The part of a URL that has an extension: its path, or its host when the path is empty. -/
def fileName (u : Url) : List Char :=
  if u.path.isEmpty then
    match u.authority with
    | some { host := .name name, .. } => name
    | _ => []
  else
    let trimmed := (u.path.reverse.dropWhile (· == '/')).reverse
    (trimmed.reverse.takeWhile (· != '/')).reverse

/-- The media type of what a URL names. -/
def ofUrl (u : Url) : MediaType :=
  if u.scheme = "data".toList then ofData u else ofFileName (fileName u)

/-- The dialect in which a source of this type is read. -/
def dialect : MediaType → Script.Dialect
  | .cjs | .cts | .dcts => { source := .script }
  | .mjs | .mts | .dmts => { source := .module }
  | .jsx | .tsx => { markup := true }
  | _ => { }

end MediaType

end AmdModules
