import AmdModules.Text.Bytes

/-!
# Syntax trees

One shape for every part of a script: a kind, the stretch of text it covers, and its parts. The
kinds say what a part is; analyses that look at calls, statements and scopes only need to ask the
kind and never to know how every construct is laid out.

The parts of a node stand in the order in which a walk visits them. This is the order of the text
with three exceptions: the condition of a `do` loop comes before its body, the superclass of a class
behind its members, and the decorators of a function or a field behind its parameters or value.
-/

set_option autoImplicit false

namespace AmdModules.Script

/-- What a part of a script is. -/
inductive Kind where
  -- Programs.
  | script
  | module
  -- Statements.
  | expressionStatement
  | declaration
  | block
  | empty
  | debugger
  | withStatement
  | returnStatement
  | labeled (label : String)
  | breakStatement (label : Option String)
  | continueStatement (label : Option String)
  | ifStatement
  | switchStatement
  | throwStatement
  | tryStatement
  | whileLoop
  | doLoop
  | forLoop
  | forIn
  | forOf (await : Bool)
  -- Parts of statements.
  | switchCase
  | defaultCase
  | catchClause
  | variableList (keyword : String)
  | declarator
  | body
  -- Imports and exports.
  | importDeclaration
  | exportDeclaration
  | exportDefault
  | exportNames
  | exportAll
  -- Expressions.
  | this
  | superclass
  | null
  | boolean (value : Bool)
  | number (spelling : String)
  | string (value : String)
  | regexp
  | template
  | taggedTemplate
  | identifier (name : String)
  | privateName (name : String)
  | array
  | object
  | function (async generator : Bool)
  | arrow (async : Bool)
  | classDefinition
  | unary (operator : String)
  | update (operator : String) (isPrefix : Bool)
  | binary (operator : String)
  | assignment (operator : String)
  | conditional
  | sequence
  | parenthesized
  | member
  | computedMember
  | optionalMember
  | call
  | optionalCall
  | new
  | importCall
  | superCall
  | metaProperty
  | await
  | yield (delegates : Bool)
  | markup
  /-- An operand that is missing; the parser went on without it. -/
  | invalid
  -- Parts of expressions.
  | hole
  | spread
  | name (text : String)
  | computedName
  | property
  | shorthand (name : String)
  | shorthandDefault (name : String)
  | method
  | getter
  | setter
  | constructor
  | field
  | staticBlock
  | decorator
  -- Patterns.
  | arrayPattern
  | objectPattern
  | defaultPattern
  | rest
deriving DecidableEq, Repr, Inhabited

/-- A part of a script. -/
inductive Node where
  | mk (kind : Kind) (span : Span) (parts : List Node)
deriving Repr, Inhabited

namespace Node

def kind : Node → Kind
  | mk kind _ _ => kind

def span : Node → Span
  | mk _ span _ => span

def parts : Node → List Node
  | mk _ _ parts => parts

end Node

mutual

/-- Whether two trees are the same. -/
def Node.same : Node → Node → Bool
  | .mk kind span parts, .mk kind' span' parts' =>
    kind == kind' && span == span' && sameAll parts parts'

/-- Whether two lists of trees are the same. -/
def Node.sameAll : List Node → List Node → Bool
  | [], [] => true
  | n :: ns, m :: ms => n.same m && sameAll ns ms
  | _, _ => false

end

mutual

theorem Node.same_iff (n m : Node) : n.same m = true ↔ n = m := by
  match n, m with
  | .mk kind span parts, .mk kind' span' parts' =>
    simp [Node.same, Node.sameAll_iff parts parts', and_assoc]

theorem Node.sameAll_iff (ns ms : List Node) : Node.sameAll ns ms = true ↔ ns = ms := by
  match ns, ms with
  | [], [] => simp [Node.sameAll]
  | [], _ :: _ | _ :: _, [] => simp [Node.sameAll]
  | n :: ns, m :: ms => simp [Node.sameAll, Node.same_iff n m, Node.sameAll_iff ns ms]

end

instance : DecidableEq Node :=
  fun n m => decidable_of_iff _ (Node.same_iff n m)

/-- Whether a node of this kind is a statement. Imports and exports are none, and neither are the
bodies of functions or the braces of `try`, `catch` and `finally`. -/
def Kind.isStatement : Kind → Bool
  | .expressionStatement | .declaration | .block | .empty | .debugger | .withStatement
  | .returnStatement | .labeled _ | .breakStatement _ | .continueStatement _ | .ifStatement
  | .switchStatement | .throwStatement | .tryStatement | .whileLoop | .doLoop | .forLoop | .forIn
  | .forOf _ => true
  | _ => false

/-- Whether a node of this kind opens a scope of its own: functions, arrows and classes. Getters and
setters of object literals do not. -/
def Kind.isScope : Kind → Bool
  | .function _ _ | .arrow _ | .classDefinition => true
  | _ => false

mutual

/-- A node and all its parts, in the order a walk visits them. -/
def Node.preorder : Node → List Node
  | .mk kind span parts => .mk kind span parts :: preorderAll parts

/-- The nodes of several trees, one tree after the other. -/
def Node.preorderAll : List Node → List Node
  | [] => []
  | n :: ns => n.preorder ++ preorderAll ns

end

end AmdModules.Script
