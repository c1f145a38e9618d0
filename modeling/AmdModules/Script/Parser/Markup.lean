import AmdModules.Script.Parser.Member

/-!
# Markup in expressions

Where the dialect allows it, an operand may be an element such as `<a href="x">text</a>`. Between
its tags an element holds plain text, which is no sequence of tokens; these productions therefore
hand on the place behind a tag and let the caller decide whether tokens or text follow.
-/

set_option autoImplicit false

namespace AmdModules.Script.Parser

/-- A place in the text, with the text from there on. -/
structure Place where
  offset : Nat
  text : List Char

/-- The place `count` characters behind the start of the token. -/
def placeBehind (count : Nat) : Parser Place := do
  let s ← state
  let (passed, rest) := s.reading.here.splitAt count
  return ⟨s.reading.hereOffset + Text.byteLength passed, rest⟩

/-- Reads a name in a tag, which may hold dashes. -/
def markupWord : Parser String := do
  match (← token).kind with
  | .word _ =>
    let word := (← state).reading.here.takeWhile fun c => isNamePart c || c == '-'
    let place ← placeBehind word.length
    jump place.offset place.text
    return String.ofList word
  | _ => refuse

/-- The rest of a name in a tag: more words behind dots or a colon. -/
def markupNameFrom : Nat → String → Parser String
  | 0, _ => exhausted
  | limit + 1, name => do
    if ← eat "." then markupNameFrom limit (name ++ "." ++ (← markupWord))
    else if ← eat ":" then markupNameFrom limit (name ++ ":" ++ (← markupWord))
    else return name

/-- The name of an element; one without a name only groups its children. -/
def markupName (g : Grammar) : Parser String := do
  match (← token).kind with
  | .word _ => markupNameFrom g.limit (← markupWord)
  | _ => return ""

/-- The place behind the bracket that closes a tag. -/
def tagEnd : Parser Place := do
  if startsWith ['>'] (← state).reading.here then placeBehind 1 else refuse

/-- An expression in braces, up to its closing brace. -/
def bracedExpression (g : Grammar) : Parser Node := do
  let start ← position
  expect "\x7b"
  if ← eat "..." then
    let inner ← allowingIn (g.parse .assignment)
    node .spread start [inner]
  else allowingIn (expression g)

mutual

/-- An element and the place behind it. -/
def markup (g : Grammar) : Nat → Parser (Node × Place)
  | 0 => exhausted
  | limit + 1 => do
    let start ← position
    expect "<"
    let name ← markupName g
    let attributes ← manyUntil (do return !(← isMark "\x7b") && !((← token).kind matches .word _))
      (markupAttribute g limit) limit
    if ← eat "/" then
      let place ← tagEnd
      return (.mk .markup ⟨start, place.offset⟩ attributes, place)
    else
      let (children, place) ← markupChildren g name limit (← tagEnd)
      return (.mk .markup ⟨start, place.offset⟩ (attributes ++ children), place)

/-- One attribute of an element; its value is a string, an expression in braces or an element. -/
def markupAttribute (g : Grammar) : Nat → Parser (List Node)
  | 0 => exhausted
  | limit + 1 => do
    if ← isMark "\x7b" then
      let inner ← bracedExpression g
      expect "\x7d"
      return [inner]
    else
      discard (markupNameFrom g.limit (← markupWord))
      if ← eat "=" then
        match (← state).reading.here with
        | '\x7b' :: _ =>
          let inner ← bracedExpression g
          expect "\x7d"
          return [inner]
        | '<' :: _ =>
          let (inner, place) ← markup g limit
          jump place.offset place.text
          return [inner]
        | quote :: rest =>
          if quote == '\x22' || quote == '\x27' then
            let text := rest.takeWhile (· != quote)
            if text.length == rest.length then refuse
            else
              let place ← placeBehind (text.length + 2)
              jump place.offset place.text
              return []
          else refuse
        | [] => refuse
      else return []

/-- What stands between the tags of an element, and the place behind the closing tag, which repeats
the name. -/
def markupChildren (g : Grammar) (name : String) : Nat → Place → Parser (List Node × Place)
  | 0, _ => exhausted
  | limit + 1, place => do
    let (passed, rest) := place.text.span fun c => c != '<' && c != '\x7b'
    jump (place.offset + Text.byteLength passed) rest
    match rest with
    | '<' :: '/' :: _ =>
      expect "<"
      expect "/"
      if (← markupName g) == name then return ([], ← tagEnd) else refuse
    | '<' :: _ =>
      let (child, place) ← markup g limit
      let (others, place) ← markupChildren g name limit place
      return (child :: others, place)
    | '\x7b' :: _ =>
      let child ← if (← peek).kind == .mark "\x7d" then (do advance; pure []) else
        (do return [← bracedExpression g])
      if ← isMark "\x7d" then
        let (others, place) ← markupChildren g name limit (← placeBehind 1)
        return (child ++ others, place)
      else refuse
    | _ => refuse

end

/-- An element as an operand. -/
def markupOperand (g : Grammar) : Parser Node := do
  let (element, place) ← markup g g.limit
  jump place.offset place.text
  return element

end AmdModules.Script.Parser
