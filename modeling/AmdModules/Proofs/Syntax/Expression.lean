import AmdModules.Proofs.Syntax.Form
import AmdModules.Script.Parser.Expression

/-!
# The form of expressions

Every production below gives plain trees, with four exceptions: the body of a function, the getters
and setters of an object literal, the constructors and static blocks of a class, and the statements
that stand in braces.
-/

set_option autoImplicit false

namespace AmdModules.Script.Parser

variable {g : Grammar}

/-! ## Patterns -/

theorem bindingElement_gives (hg : g.Gives) : Gives (·.Is .plain) (bindingElement g) := by
  refine .any fun start => .bind (hg.binding false) fun left hleft => .any fun b => .ite ?_ ?_
  · refine .bind (.allowingIn hg.assignment) fun right hright => ?_
    exact .plainNode rfl (by simp [hleft, hright])
  · exact .pure hleft

theorem propertyName_gives (hg : g.Gives) : Gives (·.Is .plain) (propertyName g) := by
  refine .any fun start => .any fun t => ?_
  split
  · exact leaf_gives rfl
  · exact leaf_gives rfl
  · exact leaf_gives rfl
  · refine .any fun _ => .bind (.allowingIn hg.assignment) fun inner hinner => .any fun _ => ?_
    exact .plainNode rfl (by simpa using hinner)
  · exact .refuse

theorem arrayBinding_gives (hg : g.Gives) : Gives (·.Is .plain) (arrayBinding g) := by
  refine .any fun start => .any fun _ => .bind (.manyUntil (P := (·.Is .plain)) ?_ _) ?_
  · refine .any fun here => .any fun b => .ite ?_ (.any fun b' => .ite ?_ ?_)
    · exact .pure (by simpa using .ofPlain rfl (by simp))
    · refine .bind (hg.binding false) fun inner hinner => ?_
      refine .bind (.plainNode rfl (by simpa using hinner)) fun part hpart => ?_
      exact .any fun _ => .pure (by simpa using hpart)
    · refine .bind (bindingElement_gives hg) fun part hpart => ?_
      exact .any fun _ => .pure (by simpa using hpart)
  · exact fun parts hparts => .any fun _ => .plainNode rfl hparts

theorem bindingProperty_gives (hg : g.Gives) : Gives (·.Is .plain) (bindingProperty g) := by
  refine .any fun start => .any fun b => .ite ?_ ?_
  · exact .bind (hg.binding false) fun inner hinner => .plainNode rfl (by simpa using hinner)
  · refine .bind (propertyName_gives hg) fun key hkey => .any fun b' => .ite ?_ ?_
    · refine .bind (bindingElement_gives hg) fun value hvalue => ?_
      exact .plainNode rfl (by simp [hkey, hvalue])
    · split
      · refine .any fun b'' => .ite (.bind (.allowingIn hg.assignment) fun value hvalue => ?_) ?_
        · exact .plainNode rfl (by simpa using hvalue)
        · exact .plainNode rfl (by simp)
      · exact .refuse

theorem objectBinding_gives (hg : g.Gives) : Gives (·.Is .plain) (objectBinding g) := by
  refine .any fun start => .any fun _ => .bind (.manyUntil (P := (·.Is .plain)) ?_ _) ?_
  · refine .bind (bindingProperty_gives hg) fun part hpart => ?_
    exact .any fun _ => .pure (by simpa using hpart)
  · exact fun parts hparts => .any fun _ => .ite .refuse (.plainNode rfl hparts)

theorem binding_gives (hg : g.Gives) (lexical : Bool) :
    Gives (·.Is .plain) (binding g lexical) := by
  refine .any fun t => ?_
  split
  · exact bindingIdentifier_gives lexical
  · exact arrayBinding_gives hg
  · exact objectBinding_gives hg
  · exact .refuse

/-! ## Calls, members and templates -/

theorem expression_gives (hg : g.Gives) : Gives (·.Is .plain) (expression g) := by
  refine .any fun start => .bind hg.assignment fun first hfirst => .any fun b => .ite ?_ ?_
  · refine .bind (.manyUntil (P := (·.Is .plain)) ?_ _) fun others hothers => ?_
    · exact .any fun _ => .singleton hg.assignment
    · exact .plainNode rfl (by simpa [hfirst] using hothers)
  · exact .pure hfirst

theorem element_gives (hg : g.Gives) : Gives (·.Is .plain) (element g) := by
  refine .any fun start => .any fun b => .ite ?_ (.allowingIn hg.assignment)
  exact .bind (.allowingIn hg.assignment) fun inner hinner => .plainNode rfl (by simpa using hinner)

theorem arguments_gives (hg : g.Gives) : Gives (∀ n ∈ ·, n.Is .plain) (arguments g) := by
  refine .any fun _ => .bind (.manyUntil (P := (·.Is .plain)) ?_ _) ?_
  · refine .bind (element_gives hg) fun item hitem => ?_
    exact .any fun _ => .pure (by simpa using hitem)
  · exact fun items hitems => .any fun _ => .pure hitems

theorem substitutions_gives (hg : g.Gives) (tagged : Bool) (limit : Nat) :
    Gives (∀ n ∈ ·, n.Is .plain) (substitutions g tagged limit) := by
  induction limit with
  | zero => exact .exhausted
  | succ limit ih =>
    refine .bind (.allowingIn (expression_gives hg)) fun value hvalue => ?_
    refine .any fun b => .ite ?_ .refuse
    refine .any fun s => .any fun closes => .ite (.pure (by simpa using hvalue)) ?_
    exact .bind ih fun others hothers => .pure (by simpa [hvalue] using hothers)

theorem template_gives (hg : g.Gives) (tagged : Bool) :
    Gives (·.Is .plain) (template g tagged) := by
  refine .any fun start => .any fun s => .any fun closes => .ite (.plainNode rfl (by simp)) ?_
  exact .bind (substitutions_gives hg tagged _) fun parts hparts => .plainNode rfl hparts

theorem regexp_gives : Gives (·.Is .plain) regexp := by
  refine .any fun start => .any fun s => ?_
  split
  · exact .any fun _ => .plainNode rfl (by simp)
  · exact .refuse

theorem memberName_gives : Gives (·.Is .plain) memberName :=
  .any fun _ => .ite privateName_gives anyName_gives

theorem callKind_plain {callee : Node} {items : List Node} (hcallee : callee.Is .plain)
    (hitems : ∀ n ∈ items, n.Is .plain) :
    (callKind callee items).1.role = .plain ∧ ∀ n ∈ (callKind callee items).2, n.Is .plain := by
  unfold callKind
  split <;> simpa [Kind.role, Kind.isStatement, hcallee] using hitems

theorem subscript_gives (hg : g.Gives) (calls brackets : Bool) {operand : Node}
    (hoperand : operand.Is .plain) :
    Gives (∀ n ∈ ·, n.Is .plain) (subscript g calls brackets operand) := by
  -- every way to go on ends in a node with the operand in front of plain parts
  have hnode {kind : Kind} {start : Nat} {parts : List Node} (hkind : kind.role = .plain)
      (hparts : ∀ n ∈ parts, n.Is .plain) :
      Gives (∀ n ∈ ·, n.Is .plain) (do return some (← node kind start parts)) :=
    .bind (.plainNode hkind hparts) fun n hn => .pure (by simpa using hn)
  have hpair {inner : Node} (hinner : inner.Is .plain) :
      ∀ n ∈ [operand, inner], n.Is .plain := by simp [hoperand, hinner]
  refine .any fun b => .ite (.ite .refuse (.any fun _ => ?_)) (.any fun b' => .ite ?_ ?_)
  · refine .any fun b' => .ite (.any fun _ => ?_) (.any fun b'' => .ite ?_ ?_)
    · refine .bind (.allowingIn (expression_gives hg)) fun inner hinner => .any fun _ => ?_
      exact hnode rfl (hpair hinner)
    · refine .bind (arguments_gives hg) fun items hitems => ?_
      exact hnode rfl (by simpa [hoperand] using hitems)
    · exact .bind memberName_gives fun name hname => hnode rfl (hpair hname)
  · refine .ite .refuse (.any fun _ => ?_)
    refine .bind (.allowingIn (expression_gives hg)) fun inner hinner => .any fun _ => ?_
    exact hnode (by split <;> rfl) (hpair hinner)
  · refine .any fun b'' => .ite (.bind (arguments_gives hg) fun items hitems => ?_) ?_
    · obtain ⟨hkind, hparts⟩ := callKind_plain hoperand hitems
      exact hnode hkind hparts
    · refine .any fun dot => .ite (.ite ?_ ?_) (.ite .refuse (.any fun tick => .ite ?_ ?_))
      · exact .any fun _ => .ite (hnode rfl (by simp)) .refuse
      · exact .bind memberName_gives fun name hname => hnode (by split <;> rfl) (hpair hname)
      · exact .bind (template_gives hg true) fun text htext => hnode rfl (hpair htext)
      · exact .pure (by simp)

theorem subscripts_gives (hg : g.Gives) (calls brackets : Bool) (limit : Nat) {operand : Node}
    (hoperand : operand.Is .plain) :
    Gives (·.Is .plain) (subscripts g calls brackets limit operand) := by
  induction limit generalizing operand with
  | zero => exact .exhausted
  | succ limit ih =>
    refine .bind (subscript_gives hg calls brackets hoperand) fun longer? hlonger => ?_
    cases longer? with
    | some longer => exact ih (hlonger longer rfl)
    | none => exact .pure hoperand

theorem decorators_gives (hg : g.Gives) : Gives (∀ n ∈ ·, n.Is .plain) (decorators g) := by
  refine .manyUntil (.any fun start => .any fun _ => .any fun b => .ite ?_ ?_) _
  · refine .bind (expression_gives hg) fun inner hinner => .any fun _ => ?_
    exact .singleton (.plainNode rfl (by simpa using hinner))
  · refine .bind (identifier_gives _ _) fun name hname => ?_
    refine .bind (subscripts_gives hg true false _ hname) fun inner hinner => ?_
    exact .singleton (.plainNode rfl (by simpa using hinner))

/-! ## Functions -/

theorem braced_gives (hg : g.Gives) (directives : Bool) :
    Gives (∀ n ∈ ·, n.Is .statement) (braced g directives) := by
  refine .any fun _ => .any fun t => .bind (.within (P := (∀ n ∈ ·, n.Is .statement)) ?_
    (fun _ => rfl) fun _ _ => rfl) fun items hitems => .any fun _ => .pure hitems
  exact .manyUntil (.singleton (hg.statement true)) _

theorem functionBody_gives (hg : g.Gives) (async generator : Bool) :
    Gives (·.Is .body) (functionBody g async generator) := by
  refine .any fun start => ?_
  refine .bind (.within (braced_gives hg true) (fun _ => rfl) fun _ h => h) fun items hitems => ?_
  exact .node (p := .statement) (q := .statement) rfl rfl rfl (by simpa using hitems)

theorem parameter_gives (hg : g.Gives) : Gives (∀ n ∈ ·, n.Is .plain) (parameter g) := by
  refine .bind (decorators_gives hg) fun marks hmarks => .any fun start => .any fun b => ?_
  -- a parameter stands behind its decorators
  have hlast {p : Parser Node} (hp : Gives (·.Is .plain) p) :
      Gives (∀ n ∈ ·, n.Is .plain) (do return marks ++ [← p]) :=
    .bind hp fun n hn => .pure (by grind)
  refine .ite (.bind (hg.binding false) fun inner hinner => .any fun b' => .ite ?_ ?_)
    (.bind (hg.binding false) fun left hleft => .any fun b' => .ite ?_ ?_)
  · refine .bind hg.assignment fun right hright => ?_
    refine .bind (.plainNode rfl (by simp [hinner, hright])) fun inner' hinner' => ?_
    exact hlast (.plainNode rfl (by simpa using hinner'))
  · exact hlast (.plainNode rfl (by simpa using hinner))
  · refine .bind hg.assignment fun right hright => ?_
    exact hlast (.plainNode rfl (by simp [hleft, hright]))
  · exact .pure (by grind)

theorem parameters_gives (hg : g.Gives) (async generator : Bool) :
    Gives (∀ n ∈ ·, n.Is .plain) (parameters g async generator) := by
  refine .any fun _ => .bind (.within (.manyUntil (P := (·.Is .plain)) ?_ _) (fun _ => rfl)
    fun _ h => h) fun items hitems => .any fun _ => .pure hitems
  exact .bind (parameter_gives hg) fun item hitem => .any fun _ => .pure hitem

theorem functionFrom_gives (hg : g.Gives) (async generator : Bool) (start : Nat)
    {name decorators : List Node} (hname : ∀ n ∈ name, n.Is .plain)
    (hdecorators : ∀ n ∈ decorators, n.Is .plain) :
    Gives (·.Is .plain) (functionFrom g async generator start name decorators) := by
  refine .bind (parameters_gives hg async generator) fun items hitems => ?_
  refine .bind (functionBody_gives hg async generator) fun body hbody => ?_
  exact .node (p := .plain) (q := .body) rfl rfl rfl (by grind)

theorem functionExpression_gives (hg : g.Gives) (async : Bool) (start : Nat) :
    Gives (·.Is .plain) (functionExpression g async start) := by
  refine .any fun _ => .any fun generator => ?_
  refine .bind (.within (optionalBindingIdentifier_gives _) (fun _ => rfl) fun _ h => h) ?_
  exact fun name hname => functionFrom_gives hg async generator start hname (by simp)

theorem functionDeclaration_gives (hg : g.Gives) (async named : Bool) (start : Nat)
    {decorators : List Node} (hdecorators : ∀ n ∈ decorators, n.Is .plain) :
    Gives (·.Is .plain) (functionDeclaration g async named start decorators) := by
  refine .any fun _ => .any fun generator => .ite ?_ ?_
  · refine .bind (.singleton (bindingIdentifier_gives _)) fun name hname => ?_
    exact functionFrom_gives hg async generator start hname hdecorators
  · refine .bind (optionalBindingIdentifier_gives _) fun name hname => ?_
    exact functionFrom_gives hg async generator start hname hdecorators

theorem arrowFrom_gives (hg : g.Gives) (async : Bool) (start : Nat) {items : List Node}
    (hitems : ∀ n ∈ items, n.Is .plain) : Gives (·.Is .plain) (arrowFrom g async start items) := by
  refine .any fun b => .ite ?_ ?_
  · refine .bind (functionBody_gives hg async false) fun body hbody => ?_
    exact .node (p := .plain) (q := .body) rfl rfl rfl (by grind)
  · refine .bind (.within hg.assignment (fun _ => rfl) fun _ h => h) fun body hbody => ?_
    exact .plainNode rfl (by grind)

/-! ## Array and object literals -/

theorem arrayLiteral_gives (hg : g.Gives) : Gives (·.Is .plain) (arrayLiteral g) := by
  refine .any fun start => .any fun _ => .bind (.manyUntil (P := (·.Is .plain)) ?_ _) ?_
  · refine .any fun here => .any fun b => .ite (.pure (by simpa using .ofPlain rfl (by simp))) ?_
    refine .bind (element_gives hg) fun item hitem => ?_
    exact .any fun _ => .pure (by simpa using hitem)
  · exact fun items hitems => .any fun _ => .plainNode rfl hitems

theorem methodFrom_gives (hg : g.Gives) (async generator : Bool) (start : Nat) {key : Node}
    (hkey : key.Is .plain) : Gives (·.Is .plain) (methodFrom g async generator start key) := by
  refine .bind (functionFrom_gives hg async generator start (by simp) (by simp)) ?_
  exact fun function hfunction => .plainNode rfl (by simp [hkey, hfunction])

theorem getterFrom_gives (hg : g.Gives) (start : Nat) {key : Node} (hkey : key.Is .plain) :
    Gives (·.Is .accessor) (getterFrom g start key) := by
  refine .any fun _ => .bind (functionBody_gives hg false false) fun body hbody => ?_
  exact .node (p := .plain) (q := .body) rfl rfl rfl (by simp [hkey, hbody])

theorem setterFrom_gives (hg : g.Gives) (start : Nat) {key : Node} (hkey : key.Is .plain) :
    Gives (·.Is .accessor) (setterFrom g start key) := by
  refine .bind (parameters_gives hg false false) fun items hitems => ?_
  refine .bind (functionBody_gives hg false false) fun body hbody => ?_
  refine .node (p := .plain) (q := .body) rfl rfl rfl ?_
  have hkept : ∀ n ∈ items.take 2, n.Is .plain := fun n hn => hitems n (List.mem_of_mem_take hn)
  grind

/-- A property of an object literal, accessors among them. -/
def IsProperty (n : Node) : Prop :=
  n.Is .plain ∨ n.Is .accessor

theorem modifiedProperty_gives (hg : g.Gives) (start : Nat) (word : String) :
    Gives IsProperty (modifiedProperty g start word) := by
  unfold modifiedProperty
  split
  · refine .bind (propertyName_gives hg) fun key hkey => ?_
    exact (getterFrom_gives hg start hkey).mono fun _ => .inr
  · refine .bind (propertyName_gives hg) fun key hkey => ?_
    exact (setterFrom_gives hg start hkey).mono fun _ => .inr
  · refine .any fun generator => .bind (propertyName_gives hg) fun key hkey => ?_
    exact (methodFrom_gives hg true generator start hkey).mono fun _ => .inl
  · exact .refuse

theorem property_gives (hg : g.Gives) : Gives IsProperty (property g) := by
  refine .any fun start => .any fun b => .ite ?_ (.any fun b' => .ite ?_ ?_)
  · refine .bind (.allowingIn hg.assignment) fun inner hinner => ?_
    exact (Gives.plainNode rfl (by simpa using hinner)).mono fun _ => .inl
  · refine .bind (propertyName_gives hg) fun key hkey => ?_
    exact (methodFrom_gives hg false true start hkey).mono fun _ => .inl
  · refine .bind (propertyName_gives hg) fun key hkey => ?_
    refine .any fun b'' => .ite ?_ (.any fun b₃ => .ite ?_ ?_)
    · refine .bind (.allowingIn hg.assignment) fun value hvalue => ?_
      exact (Gives.plainNode rfl (by simp [hkey, hvalue])).mono fun _ => .inl
    · exact (methodFrom_gives hg false false start hkey).mono fun _ => .inl
    · split
      · refine .any fun _ => .any fun b₄ => .ite ?_ (.any fun b₅ => .any fun b₆ => .ite ?_ ?_)
        · refine .bind (.allowingIn hg.assignment) fun value hvalue => ?_
          exact (Gives.plainNode rfl (by simpa using hvalue)).mono fun _ => .inl
        · exact (Gives.plainNode rfl (by simp)).mono fun _ => .inl
        · exact modifiedProperty_gives hg start _
      · exact .refuse

theorem objectLiteral_gives (hg : g.Gives) : Gives (·.Is .plain) (objectLiteral g) := by
  refine .any fun start => .any fun _ => .bind (.manyUntil (P := IsProperty) ?_ _) ?_
  · refine .bind (property_gives hg) fun item hitem => ?_
    exact .any fun _ => .pure (by simpa using hitem)
  · exact fun items hitems => .any fun _ => .node rfl rfl rfl hitems

/-! ## Classes -/

theorem classMemberName_gives (hg : g.Gives) : Gives (·.Is .plain) (classMemberName g) :=
  .any fun _ => .ite privateName_gives (propertyName_gives hg)

section

variable {start : Nat} {key : Node} {marks : List Node} (hg : g.Gives) (hkey : key.Is .plain)
  (hmarks : ∀ n ∈ marks, n.Is .plain)

include hg hkey hmarks in
theorem classMethodFrom_gives (async generator : Bool) :
    Gives (·.Is .plain) (classMethodFrom g async generator start key marks) := by
  refine .bind (functionFrom_gives hg async generator start (by simp) hmarks) ?_
  exact fun function hfunction => .plainNode rfl (by simp [hkey, hfunction])

include hg hkey hmarks in
theorem fieldFrom_gives : Gives (·.Is .plain) (fieldFrom g start key marks) := by
  refine .ite .refuse (.any fun b => .ite ?_ ?_)
  · refine .bind (.singleton (.allowingIn hg.assignment)) fun value hvalue => .any fun _ => ?_
    exact .plainNode rfl (by grind)
  · refine .bind (.nil (R := (·.Is .plain))) fun value hvalue => .any fun _ => ?_
    exact .plainNode rfl (by grind)

include hg hkey in
theorem constructorFrom_gives : Gives (·.Is .member) (constructorFrom g start key) := by
  refine .bind (parameters_gives hg false false) fun items hitems => ?_
  refine .bind (functionBody_gives hg false false) fun body hbody => ?_
  exact .node (p := .plain) (q := .body) rfl rfl rfl (by grind)

include hg in
theorem staticBlockFrom_gives : Gives (·.Is .member) (staticBlockFrom g start) := by
  refine .bind (.within (braced_gives hg false) (fun _ => rfl) fun _ h => h) fun items hitems => ?_
  exact .node (p := .statement) (q := .statement) rfl rfl rfl (by simpa using hitems)

/-- A member of a class, constructors and static blocks among them. -/
def IsMember (n : Node) : Prop :=
  n.Is .plain ∨ n.Is .member

include hg hmarks in
theorem plainMember_gives (isStatic : Bool) :
    Gives IsMember (plainMember g start marks isStatic) := by
  have hmethod (async generator : Bool) {key : Node} (hkey : key.Is .plain) :
      Gives IsMember (classMethodFrom g async generator start key marks) :=
    (classMethodFrom_gives hg hkey hmarks async generator).mono fun _ => .inl
  refine .any fun b => .ite ((staticBlockFrom_gives hg).mono fun _ => .inr) ?_
  refine .any fun b' => .ite ?_ ?_
  · exact .bind (classMemberName_gives hg) fun key hkey => hmethod false true hkey
  · refine .bind (classMemberName_gives hg) fun key hkey => .any fun b'' => .ite (.ite ?_ ?_) ?_
    · exact (constructorFrom_gives hg hkey).mono fun _ => .inr
    · exact hmethod false false hkey
    · refine .any fun t => .any fun e => .any fun e' => .ite ?_ (.ite ?_ (.ite ?_ .refuse))
      · exact (fieldFrom_gives hg hkey hmarks).mono fun _ => .inl
      · refine .any fun generator => .bind (classMemberName_gives hg) fun key' hkey' => ?_
        exact .ite .refuse (hmethod true generator hkey')
      · exact .bind (classMemberName_gives hg) fun key' hkey' => hmethod false false hkey'

include hg hkey hmarks in
theorem memberNamedBy_gives :
    Gives (∀ n ∈ ·, n.Is .plain) (memberNamedBy g start marks key) := by
  refine .any fun b => .ite ?_ (.any fun e => .ite ?_ (.pure (by simp)))
  · refine .bind (classMethodFrom_gives hg hkey hmarks false false) fun n hn => ?_
    exact .pure (by simpa using hn)
  · exact .bind (fieldFrom_gives hg hkey hmarks) fun n hn => .pure (by simpa using hn)

end

theorem modifier_gives (word : String) : Gives (∀ n ∈ ·, n.Is .plain) (modifier word) := by
  refine .any fun b => .ite ?_ (.pure (by simp))
  exact .bind (leaf_gives rfl) fun n hn => .pure (by simpa using hn)

theorem classMember_gives (hg : g.Gives) : Gives IsMember (classMember g) := by
  refine .any fun start => .bind (decorators_gives hg) fun marks hmarks => ?_
  refine .bind (modifier_gives _) fun static? hstatic => ?_
  refine .bind (modifier_gives _) fun accessor? haccessor => ?_
  split
  · refine .bind (memberNamedBy_gives hg (haccessor _ rfl) hmarks) fun member? hmember => ?_
    cases member? with
    | some member => exact .pure (.inl (hmember member rfl))
    | none => exact plainMember_gives hg hmarks _
  · refine .bind (memberNamedBy_gives hg (hstatic _ rfl) hmarks) fun member? hmember => ?_
    cases member? with
    | some member => exact .pure (.inl (hmember member rfl))
    | none => exact plainMember_gives hg hmarks _
  · exact plainMember_gives hg hmarks _

theorem classBody_gives (hg : g.Gives) : Gives (∀ n ∈ ·, IsMember n) (classBody g) := by
  refine .any fun _ => .bind (.manyUntil (P := IsMember) ?_ _) ?_
  · exact .any fun b => .ite .nil (.singleton (classMember_gives hg))
  · exact fun items hitems => .any fun _ => .pure hitems

theorem classFrom_gives (hg : g.Gives) (named : Bool) (start : Nat) {decorators : List Node}
    (hdecorators : ∀ n ∈ decorators, n.Is .plain) :
    Gives (·.Is .plain) (classFrom g named start decorators) := by
  refine .within ?_ (fun _ => rfl) fun _ _ => rfl
  have hmembers {name parent : List Node} (hname : ∀ n ∈ name, n.Is .plain)
      (hparent : ∀ n ∈ parent, n.Is .plain) : Gives (·.Is .plain) (do
        let members ← classBody g
        node .classDefinition start (name ++ decorators ++ members ++ parent)) := by
    refine .bind (classBody_gives hg) fun members hmembers => ?_
    exact .node (p := .plain) (q := .member) rfl rfl rfl (by unfold IsMember at hmembers; grind)
  have hrest {name : List Node} (hname : ∀ n ∈ name, n.Is .plain) : Gives (·.Is .plain) (do
      let parent ←
        if ← eatWord "extends" then (do return [← g.parse .leftHandSide]) else pure []
      if ← eatWord "extends" then discard (g.parse .leftHandSide)
      let members ← classBody g
      node .classDefinition start (name ++ decorators ++ members ++ parent)) := by
    refine .any fun b => .ite ?_ ?_
    · refine .bind (.singleton hg.leftHandSide) fun parent hparent => .any fun b' => .ite ?_ ?_
      · exact .any fun _ => hmembers hname hparent
      · exact hmembers hname hparent
    · refine .bind (.nil (R := (·.Is .plain))) fun parent hparent => .any fun b' => .ite ?_ ?_
      · exact .any fun _ => hmembers hname hparent
      · exact hmembers hname hparent
  refine .any fun _ => .ite ?_ ?_
  · exact .bind (.singleton (bindingIdentifier_gives _)) fun name hname => hrest hname
  · exact .bind (optionalBindingIdentifier_gives _) fun name hname => hrest hname

/-! ## Operands -/

theorem missing_gives : Gives (·.Is .plain) missing :=
  .any fun _ => .any fun _ => .pure (.invalid _)

theorem parenthesizedFrom_gives (start : Nat) {items : List Node}
    (hitems : ∀ n ∈ items, n.Is .plain) : Gives (·.Is .plain) (parenthesizedFrom start items) := by
  refine .ite .refuse ?_
  split
  · exact .refuse
  · exact .plainNode rfl hitems
  · exact .plainNode rfl (by simpa using .ofPlain rfl hitems)

/-- Parameters of an arrow that were read as arguments. -/
theorem arrowParameters_gives (hg : g.Gives) (async : Bool) (start : Nat) {items : List Node}
    (hitems : ∀ n ∈ items, n.Is .plain) :
    Gives (·.Is .plain) (match asParameters items with
      | some items => arrowFrom g async start items
      | none => refuse) := by
  split
  · rename_i items' hitems'
    exact arrowFrom_gives hg async start (elementsAsPatterns_is items hitems hitems')
  · exact .refuse

theorem parenthesized_gives (hg : g.Gives) (mayBeArrow : Bool) :
    Gives (·.Is .plain) (parenthesized g none mayBeArrow) := by
  refine .any fun start => .bind (.allowingIn (arguments_gives hg)) fun items hitems => ?_
  refine .any fun b => .ite (.any fun t => .ite .refuse (.any fun _ => ?_)) ?_
  · exact arrowParameters_gives hg false start hitems
  · exact parenthesizedFrom_gives start hitems

/-- Behind the name `async`: an arrow function or a call. -/
theorem asyncParenthesized_gives (hg : g.Gives) (mayBeArrow : Bool) {name : Node}
    (hname : name.Is .plain) : Gives (·.Is .plain) (parenthesized g (some name) mayBeArrow) := by
  refine .any fun start => .bind (.allowingIn (arguments_gives hg)) fun items hitems => ?_
  refine .any fun b => .ite (.any fun t => .ite .refuse (.any fun _ => ?_)) ?_
  · exact arrowParameters_gives hg true start hitems
  · exact .plainNode rfl (by simpa [hname] using hitems)

theorem identifierOrArrow_gives (hg : g.Gives) (mayBeArrow : Bool) :
    Gives (·.Is .plain) (identifierOrArrow g mayBeArrow) := by
  refine .any fun start => .any fun c => .bind (identifier_gives _ _) fun name hname => ?_
  refine .any fun t => .any fun b => .ite (.any fun following => .ite (.pure hname) ?_) (.ite ?_ ?_)
  · refine .bind (bindingIdentifier_gives _) fun item hitem => .any fun _ => ?_
    exact arrowFrom_gives hg true start (by simpa using hitem)
  · exact .any fun _ => arrowFrom_gives hg false start (by simpa using hname)
  · exact .pure hname

theorem primaryWord_gives (hg : g.Gives) (word : String) (mayBeArrow : Bool) :
    Gives (·.Is .plain) (primaryWord g word mayBeArrow) := by
  refine .any fun start => ?_
  split
  · exact leaf_gives rfl
  · exact leaf_gives rfl
  · exact leaf_gives rfl
  · exact leaf_gives rfl
  · exact functionExpression_gives hg false start
  · exact classFrom_gives hg false start (by simp)
  · exact identifierOrArrow_gives hg mayBeArrow
  · refine .any fun following => .ite (.any fun _ => ?_) (.ite ?_ ?_)
    · exact functionExpression_gives hg true start
    · refine .bind (leaf_gives rfl) fun name hname => ?_
      exact asyncParenthesized_gives hg mayBeArrow hname
    · exact .any fun t => .any fun b => .ite (identifierOrArrow_gives hg mayBeArrow) .refuse

theorem primary_gives (hg : g.Gives) : Gives (·.Is .plain) (primary g) := by
  refine .any fun t => .any fun c => ?_
  dsimp only
  split
  · exact primaryWord_gives hg _ _
  · exact leaf_gives rfl
  · exact leaf_gives rfl
  · exact arrayLiteral_gives hg
  · exact objectLiteral_gives hg
  · exact parenthesized_gives hg _
  · exact template_gives hg false
  · exact regexp_gives
  · exact regexp_gives
  · exact privateName_gives
  · -- no dialect with markup is read here
    refine .context fun c' hmarkup _ => ?_
    rw [hmarkup]
    exact .refuse
  · refine .bind (decorators_gives hg) fun marks hmarks => .any fun b => .ite ?_ .refuse
    exact classFrom_gives hg false _ hmarks
  · exact .refuse

theorem constructed_gives (hg : g.Gives) : Gives (·.Is .plain) (constructed g) := by
  have hmembers {p : Parser Node} (hp : Gives (·.Is .plain) p) :
      Gives (·.Is .plain) (p >>= subscripts g false true g.limit) :=
    .bind hp fun operand hoperand => subscripts_gives hg false true _ hoperand
  refine .any fun start => .any fun b => ?_
  refine .ite (.any fun dot => .ite ?_ ?_) (.any fun b' => .ite ?_ ?_)
  · exact .any fun _ => .ite (hmembers (.plainNode rfl (by simp))) .refuse
  · refine .bind hg.constructed fun callee hcallee => .ite (.pure hcallee) (.ite .refuse ?_)
    refine .any fun b' => .ite (.bind (arguments_gives hg) fun items hitems => ?_) ?_
    · exact hmembers (.plainNode rfl (by simpa [hcallee] using hitems))
    · exact .plainNode rfl (by simpa using hcallee)
  · exact hmembers (leaf_gives rfl)
  · refine .any fun b'' => .ite (hmembers (leaf_gives rfl)) ?_
    refine .bind (primary_gives hg) fun operand hoperand => .ite (.pure hoperand) ?_
    exact subscripts_gives hg false true _ hoperand

theorem leftHandSide_gives (hg : g.Gives) : Gives (·.Is .plain) (leftHandSide g) := by
  have hmembers {p : Parser Node} (hp : Gives (·.Is .plain) p) :
      Gives (·.Is .plain) (p >>= subscripts g true true g.limit) :=
    .bind hp fun operand hoperand => subscripts_gives hg true true _ hoperand
  refine .any fun start => .any fun b => .ite (hmembers (leaf_gives rfl)) ?_
  refine .any fun b' => .ite (hmembers (leaf_gives rfl)) ?_
  refine .bind (constructed_gives hg) fun callee hcallee => .ite (.pure hcallee) ?_
  refine .any fun b'' => .ite (.bind (arguments_gives hg) fun items hitems => ?_) (.pure hcallee)
  obtain ⟨hkind, hparts⟩ := callKind_plain hcallee hitems
  exact hmembers (.plainNode hkind hparts)

/-! ## Operators -/

theorem awaitExpression_gives (hg : g.Gives) : Gives (·.Is .plain) (awaitExpression g) := by
  refine .any fun start => .any fun _ => .any fun t => .any fun c => .ite .refuse (.ite ?_ ?_)
  · exact .any fun s => .ite .refuse (.plainNode rfl (by simp))
  · exact .bind hg.unary fun operand hoperand => .plainNode rfl (by simpa using hoperand)

theorem unary_gives (hg : g.Gives) : Gives (·.Is .plain) (unary g) := by
  refine .any fun t => ?_
  dsimp only
  split
  · refine .any fun _ => .bind hg.unary fun operand hoperand => ?_
    exact .pure (.ofPlain rfl (by simpa using hoperand))
  · refine .any fun _ => .bind (.orElse hg.unary missing_gives) fun operand hoperand => ?_
    exact .pure (.ofPlain rfl (by simpa using hoperand))
  · refine .ite (awaitExpression_gives hg) ?_
    refine .bind (leftHandSide_gives hg) fun operand hoperand => ?_
    refine .any fun t' => .ite (.pure hoperand) ?_
    split
    · exact .any fun _ => .plainNode rfl (by simpa using hoperand)
    · exact .pure hoperand

theorem operators_gives (hg : g.Gives) (floor : Nat) {left : Node} (hleft : left.Is .plain) :
    Gives (·.Is .plain) (operators g floor left) := by
  refine .any fun c => .any fun t => ?_
  split
  · exact .pure hleft
  · refine .ite (.pure hleft) (.any fun _ => .ite .refuse ?_)
    refine .bind hg.unary fun operand hoperand => ?_
    refine .bind (hg.operators _ hoperand) fun right hright => ?_
    exact hg.operators floor (.ofPlain rfl (by simp [hleft, hright]))

theorem binary_gives (hg : g.Gives) : Gives (·.Is .plain) (binary g) := by
  refine .bind (.orElse hg.unary (.any fun c => .any fun t => ?_)) fun left hleft => ?_
  · split
    · exact missing_gives
    · exact .refuse
  · exact .ite (.pure hleft) (hg.operators 0 hleft)

theorem conditional_gives (hg : g.Gives) : Gives (·.Is .plain) (conditional g) := by
  refine .any fun start => .bind (binary_gives hg) fun test htest => .ite (.pure htest) ?_
  refine .any fun b => .ite ?_ (.pure htest)
  refine .bind (.allowingIn hg.assignment) fun yes hyes => .any fun _ => ?_
  exact .bind hg.assignment fun no hno => .plainNode rfl (by simp [htest, hyes, hno])

theorem yieldExpression_gives (hg : g.Gives) : Gives (·.Is .plain) (yieldExpression g) := by
  refine .any fun start => .any fun _ => .any fun c => .ite .refuse (.any fun t => .ite ?_ ?_)
  · exact .plainNode rfl (by simp)
  · refine .any fun delegates => .bind hg.assignment fun operand hoperand => ?_
    exact .plainNode rfl (by simpa using hoperand)

theorem assignedTo_is {operator : String} {left target : Node} (hleft : left.Is .plain)
    (h : assignedTo operator left = some target) : target.Is .plain := by
  unfold assignedTo at h
  split at h
  · obtain ⟨pattern, hpattern, h⟩ := Option.bind_eq_some_iff.mp h
    obtain ⟨-, h⟩ := Option.ite_none_right_eq_some.mp h
    cases h
    exact asPattern_is left hleft hpattern
  · obtain ⟨-, h⟩ := Option.ite_none_right_eq_some.mp h
    cases h
    exact hleft

theorem assignment_gives (hg : g.Gives) : Gives (·.Is .plain) (assignment g) := by
  refine .any fun t => .any fun c => .ite (yieldExpression_gives hg) ?_
  refine .bind (.within (conditional_gives hg) (fun _ => rfl) fun _ h => h) fun left hleft => ?_
  split
  all_goals try exact .pure hleft
  refine .any fun t' => ?_
  split
  · exact .pure hleft
  · split
    · exact .refuse
    · rename_i target htarget
      refine .any fun _ => .bind hg.assignment fun right hright => ?_
      exact .plainNode rfl (by simp [assignedTo_is hleft htarget, hright])

end AmdModules.Script.Parser
