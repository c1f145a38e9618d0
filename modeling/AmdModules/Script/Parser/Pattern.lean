import AmdModules.Script.Parser.Basic

/-!
# Patterns

Patterns are read in two ways. Where the grammar announces one, as behind `var` or between the
parentheses of a function, `binding` reads it directly. The left side of an assignment and the
parameters of an arrow are known to be patterns only once the `=` or the `=>` has been met; they
are read as expressions and then taken as patterns by `asPattern`.

Taking an expression as a pattern is forgiving. A part that cannot be bound becomes `invalid` and
what it contained is dropped from the tree; only an object literal with a method in it refuses the
text.
-/

set_option autoImplicit false

namespace AmdModules.Script

/-- What the pattern is for. -/
inductive Target where
  /-- The whole left side of an assignment, or of the head of a `for` loop. -/
  | assigned
  /-- A part of such a left side. -/
  | assignedPart
  /-- A parameter of an arrow, or a part of one. -/
  | bound
deriving DecidableEq, Repr

/-- What a part of the pattern is for. -/
def Target.part : Target → Target
  | .assigned | .assignedPart => .assignedPart
  | .bound => .bound

/-- Kinds of expression that stay as they are when they are assigned to as part of a pattern,
whether that makes sense or not. -/
def Kind.staysInPattern : Kind → Bool
  | .member | .computedMember | .call | .superCall | .importCall | .new | .null | .boolean _
  | .number _ | .string _ | .regexp | .identifier _ | .function _ _ | .classDefinition
  | .parenthesized
  | .template => true
  | _ => false

mutual

/-- Takes an expression as a pattern; `none` when the text is to be refused. -/
def asPattern (target : Target) : Node → Option Node
  | .mk kind span parts =>
    match kind with
    | .invalid => some (.mk kind span parts)
    | .array => return .mk .arrayPattern span (← elementsAsPatterns target.part parts)
    | .object => return .mk .objectPattern span (← propertiesAsPatterns target.part parts)
    | .arrayPattern | .objectPattern | .defaultPattern => some (.mk kind span parts)
    | .assignment "=" =>
      if target = .assigned then some (.mk kind span parts)
      else return .mk .defaultPattern span (← firstAsPattern target parts)
    | kind =>
      match target with
      | .assigned => some (.mk kind span parts)
      | .assignedPart =>
        if kind.staysInPattern then some (.mk kind span parts) else some (.mk .invalid span [])
      | .bound =>
        match kind with
        | .identifier _ => some (.mk kind span parts)
        | _ => some (.mk .invalid span [])

/-- Takes the first of several parts as a pattern. -/
def firstAsPattern (target : Target) : List Node → Option (List Node)
  | [] => some []
  | n :: ns => return (← asPattern target n) :: ns

/-- Takes the elements of an array literal as patterns. A spread element that is not the last one is
dropped. -/
def elementsAsPatterns (target : Target) : List Node → Option (List Node)
  | [] => some []
  | .mk kind span parts :: ns =>
    match kind with
    | .spread =>
      if ns.isEmpty then return [.mk .rest span (← firstAsPattern target parts)]
      else elementsAsPatterns target ns
    | .hole => return .mk kind span parts :: (← elementsAsPatterns target ns)
    | _ => return (← asPattern target (.mk kind span parts)) :: (← elementsAsPatterns target ns)

/-- Takes the properties of an object literal as patterns. -/
def propertiesAsPatterns (target : Target) : List Node → Option (List Node)
  | [] => some []
  | .mk kind span parts :: ns =>
    match kind with
    | .shorthand _ | .shorthandDefault _ =>
      return .mk kind span parts :: (← propertiesAsPatterns target ns)
    | .property =>
      return .mk kind span (← valueAsPattern target parts) :: (← propertiesAsPatterns target ns)
    | .spread =>
      return .mk .rest span (← restAsPattern target parts) :: (← propertiesAsPatterns target ns)
    | _ => none

/-- Takes what is spread into an object literal as a pattern; only a name can be bound there. -/
def restAsPattern (target : Target) : List Node → Option (List Node)
  | [] => some []
  | .mk kind span parts :: ns =>
    match target, kind with
    | .bound, .identifier _ => some (.mk kind span parts :: ns)
    | .bound, _ => some (.mk .invalid span [] :: ns)
    | _, _ => return (← asPattern target (.mk kind span parts)) :: ns

/-- Takes the value of a property, behind its name, as a pattern. -/
def valueAsPattern (target : Target) : List Node → Option (List Node)
  | [] => some []
  | key :: ns => return key :: (← firstAsPattern target ns)

end

/-- Kinds of expression a single value can be assigned to. -/
def Kind.isSimpleTarget : Kind → Bool
  | .identifier _ | .member | .computedMember | .optionalMember | .optionalCall | .parenthesized
  | .invalid => true
  | _ => false

/-- Kinds that may stand on the left of `=`. -/
def Kind.isTarget : Kind → Bool
  | .arrayPattern | .objectPattern => true
  | kind => kind.isSimpleTarget

/-- Takes the items between parentheses as the parameters of an arrow. A spread item that is not the
last one is dropped. -/
def asParameters (items : List Node) : Option (List Node) :=
  elementsAsPatterns .bound items

namespace Parser

/-- A pattern with an optional default value. -/
def bindingElement (g : Grammar) : Parser Node := do
  let start ← position
  let left ← g.parse (.binding false)
  if ← eat "=" then
    let right ← within ({ · with allowIn := true }) (g.parse .assignment)
    node .defaultPattern start [left, right]
  else return left

/-- The name of a property: a word, a string, a number, or an expression in brackets. -/
def propertyName (g : Grammar) : Parser Node := do
  let start ← position
  match (← token).kind with
  | .word name => leaf (.name name)
  | .string value => leaf (.string value)
  | .number spelling => leaf (.number spelling)
  | .mark "[" =>
    advance
    let inner ← within ({ · with allowIn := true }) (g.parse .assignment)
    expect "]"
    node .computedName start [inner]
  | _ => refuse

/-- Passes over a comma unless the list closes here. -/
def separator (close : String) : Parser Unit := do
  if ← isMark close then return () else expect ","

/-- A pattern in brackets. -/
def arrayBinding (g : Grammar) : Parser Node := do
  let start ← position
  expect "["
  let parts ← manyUntil (isMarkOrEnd "]") (do
    let at_ ← position
    if ← eat "," then return [.mk .hole ⟨at_, at_⟩ []]
    else if ← eat "..." then
      let inner ← g.parse (.binding false)
      let part ← node .rest at_ [inner]
      separator "]"
      return [part]
    else
      let part ← bindingElement g
      separator "]"
      return [part]) g.limit
  expect "]"
  node .arrayPattern start parts

/-- One property of a pattern in braces. -/
def bindingProperty (g : Grammar) : Parser Node := do
  let start ← position
  if ← eat "..." then
    let inner ← g.parse (.binding false)
    node .rest start [inner]
  else
    let key ← propertyName g
    if ← eat ":" then
      let value ← bindingElement g
      node .property start [key, value]
    else
      match key.kind with
      | .name name =>
        if ← eat "=" then
          let value ← within ({ · with allowIn := true }) (g.parse .assignment)
          node (.shorthandDefault name) start [value]
        else node (.shorthand name) start []
      | _ => refuse

/-- Whether a list of properties ends in a rest that is not a plain name. -/
def endsInPatternRest (parts : List Node) : Bool :=
  match parts.getLast? with
  | some (.mk .rest _ [.mk kind _ _]) =>
    match kind with
    | .identifier _ => false
    | _ => true
  | _ => false

/-- A pattern in braces. -/
def objectBinding (g : Grammar) : Parser Node := do
  let start ← position
  expect "\x7b"
  let parts ← manyUntil (isMarkOrEnd "\x7d") (do
    let part ← bindingProperty g
    separator "\x7d"
    return [part]) g.limit
  expect "\x7d"
  if endsInPatternRest parts then refuse else node .objectPattern start parts

/-- A name or pattern that is bound. -/
def binding (g : Grammar) (lexical : Bool) : Parser Node := do
  match (← token).kind with
  | .word _ => bindingIdentifier lexical
  | .mark "[" => arrayBinding g
  | .mark "\x7b" => objectBinding g
  | _ => refuse

end Parser

end AmdModules.Script
