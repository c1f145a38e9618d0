import AmdModules.Proofs.Layout.Function
import AmdModules.Proofs.Reread.Member

/-!
# Functions, literals and classes of a filled text
-/

set_option autoImplicit false

namespace AmdModules.Script.Parser

open Text Yields Mirrors
open Filling (AlikeAll)

variable {text : List Char} {f : Filling text} {g g' : Grammar} {F : State → Prop} {Γ : List Node}
  {start start' : Nat}

/-! ## Functions -/

theorem braced_rereads (hg : g.Rereads f g') (directives : Bool) :
    Rereads f (braced g directives) (braced g' directives) := by
  refine .step (expect_rereads _) fun _ _ _ => .token fun kind span span' new _ => ?_
  refine .step (within_rereads { } (manyUntil_rereads (.isMarkOrEnd _)
    (singleton_rereads (hg.statement _)) hg.limit)) fun items items' hitems => ?_
  refine .step (discard_rereads (eat_rereads _)) fun _ _ _ => ?_
  exact .pure hitems (by grind)

theorem functionBody_rereads (hg : g.Rereads f g') (async generator : Bool) :
    Rereads f (functionBody g async generator) (functionBody g' async generator) := by
  refine .position fun start start' => ?_
  exact .step (within_rereads { } (braced_rereads hg _)) fun items items' hitems =>
    .node nofun hitems (by grind)

theorem parameter_rereads (hg : g.Rereads f g') : Rereads f (parameter g) (parameter g') := by
  refine .step (decorators_rereads hg) fun marks marks' hmarks => .position fun start start' => ?_
  refine .eatIf (eat_rereads _) ?_ ?_
  · refine .step (hg.binding _) fun inner inner' hinner => .eatIf (eat_rereads _) ?_ ?_
    · refine .step hg.assignment fun right right' hright => ?_
      refine .bindNode nofun (.cons hinner (.singleton hright)) (by grind)
        fun left left' hleft => ?_
      refine .bindNode nofun (.singleton hleft) (by grind) fun n n' hn => ?_
      exact .pure (.append hmarks (.singleton hn)) (by grind)
    · refine .bindNode nofun (.singleton hinner) (by grind) fun n n' hn => ?_
      exact .pure (.append hmarks (.singleton hn)) (by grind)
  · refine .step (hg.binding _) fun left left' hleft => .eatIf (eat_rereads _) ?_ ?_
    · refine .step hg.assignment fun right right' hright => ?_
      refine .bindNode nofun (.cons hleft (.singleton hright)) (by grind) fun n n' hn => ?_
      exact .pure (.append hmarks (.singleton hn)) (by grind)
    · exact .pure (.append hmarks (.singleton hleft)) (by grind)

theorem parameters_rereads (hg : g.Rereads f g') (async generator : Bool) :
    Rereads f (parameters g async generator) (parameters g' async generator) := by
  refine .step (expect_rereads _) fun _ _ _ => ?_
  refine .step (within_rereads { } (manyUntil_rereads (.isMarkOrEnd _) ?_ hg.limit))
    fun items items' hitems => ?_
  · refine .step (parameter_rereads hg) fun item item' hitem => ?_
    exact .step (separator_rereads _) fun _ _ _ => .pure hitem (by grind)
  · exact .step (expect_rereads _) fun _ _ _ => .pure hitems (by grind)

theorem functionFrom_retraces (hg : g.Rereads f g') {async generator : Bool}
    {name name' decorators decorators' : List Node} (hname : f.AlikeAll name name')
    (hdecorators : f.AlikeAll decorators decorators') (h : Within (name ++ decorators) Γ) :
    Retraces f F Γ (functionFrom g async generator start name decorators)
      (functionFrom g' async generator start' name' decorators') := by
  refine .step (parameters_rereads hg _ _) fun items items' hitems => ?_
  refine .step (functionBody_rereads hg _ _) fun body body' hbody => ?_
  exact .node nofun (.append (.append (.append hname hitems) hdecorators) (.singleton hbody))
    (by grind)

theorem functionExpression_rereads (hg : g.Rereads f g') (async : Bool) :
    Rereads f (functionExpression g async start) (functionExpression g' async start') := by
  refine .step (expectWord_rereads _) fun _ _ _ => ?_
  refine .step (eat_rereads _) fun generator generator' hgenerator => ?_
  obtain rfl : generator' = generator := hgenerator
  refine .step (within_rereads { } (optionalBindingIdentifier_rereads _)) fun name name' hname => ?_
  exact functionFrom_retraces hg hname .nil (by grind)

theorem functionDeclaration_retraces (hg : g.Rereads f g') {async named : Bool}
    {decorators decorators' : List Node} (hdecorators : f.AlikeAll decorators decorators')
    (h : Within decorators Γ) :
    Retraces f F Γ (functionDeclaration g async named start decorators)
      (functionDeclaration g' async named start' decorators') := by
  refine .step (expectWord_rereads _) fun _ _ _ => ?_
  refine .step (eat_rereads _) fun generator generator' hgenerator => ?_
  obtain rfl : generator' = generator := hgenerator
  refine .ite ?_ ?_
  · refine .step (singleton_rereads (bindingIdentifier_rereads _)) fun name name' hname => ?_
    exact functionFrom_retraces hg hname hdecorators (by grind)
  · refine .step (optionalBindingIdentifier_rereads _) fun name name' hname => ?_
    exact functionFrom_retraces hg hname hdecorators (by grind)

theorem arrowFrom_retraces (hg : g.Rereads f g') {async : Bool} {items items' : List Node}
    (hitems : f.AlikeAll items items') (h : Within items Γ) :
    Retraces f F Γ (arrowFrom g async start items) (arrowFrom g' async start' items') := by
  refine .readIf (.isMark _) ?_ ?_
  · refine .step (functionBody_rereads hg _ _) fun body body' hbody => ?_
    exact .node nofun (.append hitems (.singleton hbody)) (by grind)
  · refine .step (within_rereads { } hg.assignment) fun body body' hbody => ?_
    exact .node nofun (.append hitems (.singleton hbody)) (by grind)

/-! ## Array and object literals -/

theorem arrayLiteral_rereads (hg : g.Rereads f g') :
    Rereads f (arrayLiteral g) (arrayLiteral g') := by
  refine .position fun start start' => .step (expect_rereads _) fun _ _ _ => ?_
  refine .step (manyUntil_rereads (.isMarkOrEnd _) ?_ hg.limit) fun items items' hitems => ?_
  · refine .position fun here here' => .eatIf (eat_rereads _) ?_ ?_
    · exact .pure (.singleton (.mk (by nofun) _ _ .nil)) (.mk rfl (.refl _))
    · refine .step (element_rereads hg) fun item item' hitem => ?_
      exact .step (separator_rereads _) fun _ _ _ => .pure (.singleton hitem) (by grind)
  · exact .step (expect_rereads _) fun _ _ _ => .node nofun hitems (by grind)

section

variable {key key' : Node}

theorem methodFrom_retraces (hg : g.Rereads f g') {async generator : Bool} (hkey : f.Alike key key')
    (h : Within [key] Γ) :
    Retraces f F Γ (methodFrom g async generator start key)
      (methodFrom g' async generator start' key') := by
  refine .bind (functionFrom_retraces hg .nil .nil (.nil _)) fun function function' hfunction => ?_
  exact .node nofun (.cons hkey (.singleton hfunction)) (by grind)

theorem getterFrom_retraces (hg : g.Rereads f g') (hkey : f.Alike key key') (h : Within [key] Γ) :
    Retraces f F Γ (getterFrom g start key) (getterFrom g' start' key') := by
  refine .step (discard_rereads (parameters_rereads hg _ _)) fun _ _ _ => ?_
  refine .step (functionBody_rereads hg _ _) fun body body' hbody => ?_
  exact .node nofun (.cons hkey (.singleton hbody)) (by grind)

theorem setterFrom_retraces (hg : g.Rereads f g') (hkey : f.Alike key key') (h : Within [key] Γ) :
    Retraces f F Γ (setterFrom g start key) (setterFrom g' start' key') := by
  refine .step (parameters_rereads hg _ _) fun items items' hitems => ?_
  refine .step (functionBody_rereads hg _ _) fun body body' hbody => ?_
  refine .node nofun (.append (.cons hkey (hitems.take 2)) (.singleton hbody)) ?_
  intro x
  have htake : occurrences items x
      = occurrences (items.take 2) x + occurrences (items.drop 2) x := by
    rw [← occurrences_append, List.take_append_drop]
  grind

end

theorem modifiedProperty_rereads (hg : g.Rereads f g') (word : String) :
    Rereads f (modifiedProperty g start word) (modifiedProperty g' start' word) := by
  unfold modifiedProperty
  split
  · refine .step (propertyName_rereads hg) fun key key' hkey => ?_
    exact getterFrom_retraces hg hkey (by grind)
  · refine .step (propertyName_rereads hg) fun key key' hkey => ?_
    exact setterFrom_retraces hg hkey (by grind)
  · refine .step (eat_rereads _) fun generator generator' hgenerator => ?_
    obtain rfl : generator' = generator := hgenerator
    refine .step (propertyName_rereads hg) fun key key' hkey => ?_
    exact methodFrom_retraces hg hkey (by grind)
  · exact .refuse

theorem property_rereads (hg : g.Rereads f g') : Rereads f (property g) (property g') := by
  refine .position fun start start' => .eatIf (eat_rereads _) ?_ (.eatIf (eat_rereads _) ?_ ?_)
  · refine .step (allowingIn_rereads hg.assignment) fun inner inner' hinner => ?_
    exact .node nofun (.singleton hinner) (by grind)
  · refine .step (propertyName_rereads hg) fun key key' hkey => ?_
    exact methodFrom_retraces hg hkey (by grind)
  · refine .step (propertyName_rereads hg) fun key key' hkey => ?_
    refine .eatIf (eat_rereads _) ?_ (.readIf (.isMark _) ?_ ?_)
    · refine .step (allowingIn_rereads hg.assignment) fun value value' hvalue => ?_
      exact .node nofun (.cons hkey (.singleton hvalue)) (by grind)
    · exact methodFrom_retraces hg hkey (by grind)
    · rw [hkey.kind]
      split
      · refine .step (discard_rereads (eat_rereads _)) fun _ _ _ => .eatIf (eat_rereads _) ?_ ?_
        · refine .step (allowingIn_rereads hg.assignment) fun value value' hvalue => ?_
          exact .node nofun (.singleton hvalue) (by grind)
        · refine .read (.isMark _) fun b => .read (.isMark _) fun b' => .ite ?_ ?_
          · exact .node nofun .nil (.nil _)
          · exact (modifiedProperty_rereads hg _).frame
      · exact .refuse

theorem objectLiteral_rereads (hg : g.Rereads f g') :
    Rereads f (objectLiteral g) (objectLiteral g') := by
  refine .position fun start start' => .step (expect_rereads _) fun _ _ _ => ?_
  refine .step (manyUntil_rereads (.isMarkOrEnd _) ?_ hg.limit) fun items items' hitems => ?_
  · refine .step (property_rereads hg) fun item item' hitem => ?_
    exact .step (separator_rereads _) fun _ _ _ => .pure (.singleton hitem) (by grind)
  · exact .step (expect_rereads _) fun _ _ _ => .node nofun hitems (by grind)

/-! ## Classes -/

theorem Echoes.atFieldEnd (newLine : Bool) :
    Echoes (Parser.atFieldEnd newLine) (Parser.atFieldEnd newLine) := by
  refine .bind (.isMark _) fun b => .bind (.isMark _) fun b' => ?_
  split
  · exact .pure _
  · split
    · exact .atSemicolon
    · exact .isMark _

theorem classMemberName_rereads (hg : g.Rereads f g') :
    Rereads f (classMemberName g) (classMemberName g') :=
  .readIf (.isMark _) privateName_rereads.frame (propertyName_rereads hg).frame

theorem classMethodFrom_retraces (hg : g.Rereads f g') {async generator : Bool} {key key' : Node}
    {decorators decorators' : List Node} (hkey : f.Alike key key')
    (hdecorators : f.AlikeAll decorators decorators') (h : Within (key :: decorators) Γ) :
    Retraces f F Γ (classMethodFrom g async generator start key decorators)
      (classMethodFrom g' async generator start' key' decorators') := by
  refine .bind (functionFrom_retraces hg .nil hdecorators (by grind))
    fun function function' hfunction => ?_
  exact .node nofun (.cons hkey (.singleton hfunction)) (by grind)

theorem isConstructorName_eq {key key' : Node} (h : f.Alike key key') :
    isConstructorName key' = isConstructorName key := by
  rw [isConstructorName, h.kind, isConstructorName]

theorem fieldFrom_retraces (hg : g.Rereads f g') {key key' : Node}
    {decorators decorators' : List Node} (hkey : f.Alike key key')
    (hdecorators : f.AlikeAll decorators decorators') (h : Within (key :: decorators) Γ) :
    Retraces f F Γ (fieldFrom g start key decorators)
      (fieldFrom g' start' key' decorators') := by
  unfold fieldFrom
  rw [isConstructorName_eq hkey]
  refine .ite .refuse (.eatIf (eat_rereads _) ?_ ?_)
  · refine .step (singleton_rereads (allowingIn_rereads hg.assignment))
      fun value value' hvalue => ?_
    refine .step (discard_rereads eatSemicolon_rereads) fun _ _ _ => ?_
    exact .node nofun (.append (.cons hkey hvalue) hdecorators) (by grind)
  · refine .step nil_rereads fun value value' hvalue => ?_
    refine .step (discard_rereads eatSemicolon_rereads) fun _ _ _ => ?_
    exact .node nofun (.append (.cons hkey hvalue) hdecorators) (by grind)

theorem constructorFrom_retraces (hg : g.Rereads f g') {key key' : Node} (hkey : f.Alike key key')
    (h : Within [key] Γ) :
    Retraces f F Γ (constructorFrom g start key) (constructorFrom g' start' key') := by
  refine .step (parameters_rereads hg _ _) fun items items' hitems => ?_
  refine .step (functionBody_rereads hg _ _) fun body body' hbody => ?_
  exact .node nofun (.append (.cons hkey hitems) (.singleton hbody)) (by grind)

theorem staticBlockFrom_rereads (hg : g.Rereads f g') :
    Rereads f (staticBlockFrom g start) (staticBlockFrom g' start') := by
  refine .step (within_rereads { } (braced_rereads hg _)) fun items items' hitems => ?_
  exact .node nofun hitems (by grind)

theorem plainMember_retraces (hg : g.Rereads f g') {marks marks' : List Node} {isStatic : Bool}
    (hmarks : f.AlikeAll marks marks') (h : Within marks Γ) :
    Retraces f F Γ (plainMember g start marks isStatic)
      (plainMember g' start' marks' isStatic) := by
  refine .read (.isMark _) fun b => .ite (staticBlockFrom_rereads hg).frame ?_
  refine .eatIf (eat_rereads _) ?_ ?_
  · refine .step (classMemberName_rereads hg) fun key key' hkey => ?_
    exact classMethodFrom_retraces hg hkey hmarks (by grind)
  · refine .step (classMemberName_rereads hg) fun key key' hkey => ?_
    rw [isConstructorName_eq hkey, hkey.kind]
    refine .readIf (.isMark _) (.ite ?_ ?_) ?_
    · exact constructorFrom_retraces hg hkey (by grind)
    · exact classMethodFrom_retraces hg hkey hmarks (by grind)
    · refine .token fun kind span span' new _ => ?_
      refine .read (.atFieldEnd _) fun b => .read (.atFieldEnd _) fun b' => ?_
      refine .ite (fieldFrom_retraces hg hkey hmarks (by grind)) (.ite ?_ (.ite ?_ .refuse))
      · refine .step (eat_rereads _) fun generator generator' hgenerator => ?_
        obtain rfl : generator' = generator := hgenerator
        refine .step (classMemberName_rereads hg) fun name name' hname => ?_
        rw [isConstructorName_eq hname]
        exact .ite .refuse (classMethodFrom_retraces hg hname hmarks (by grind))
      · refine .step (classMemberName_rereads hg) fun name name' hname => ?_
        exact classMethodFrom_retraces hg hname hmarks (by grind)

theorem memberNamedBy_retraces (hg : g.Rereads f g') {marks marks' : List Node}
    {word word' : Node} (hmarks : f.AlikeAll marks marks') (hword : f.Alike word word')
    (h : Within (word :: marks) Γ) :
    Retraces f F Γ (memberNamedBy g start marks word)
      (memberNamedBy g' start' marks' word') := by
  refine .readIf (.isMark _) ?_ (.readIf (.atFieldEnd _) ?_ (.pure .none (.nil _)))
  · refine .bind (classMethodFrom_retraces hg hword hmarks h) fun n n' hn => ?_
    exact .pure (.some hn) (by grind)
  · refine .bind (fieldFrom_retraces hg hword hmarks h) fun n n' hn => ?_
    exact .pure (.some hn) (by grind)

theorem modifier_rereads (word : String) : Rereads f (modifier word) (modifier word) := by
  refine .readIf (.isWord _) ?_ (.pure .none (.nil _))
  exact .step (leaf_rereads nofun) fun n n' hn => .pure (.some hn) (by grind)

/-- The member that a modifier names, or else the one behind the modifier. -/
def memberOrPlain (g : Grammar) (start : Nat) (marks : List Node) (isStatic : Bool) :
    Option Node → Parser Node
  | some member => return member
  | none => plainMember g start marks isStatic

theorem classMember_rereads (hg : g.Rereads f g') :
    Rereads f (classMember g) (classMember g') := by
  refine .position fun start start' => .step (decorators_rereads hg) fun marks marks' hmarks => ?_
  refine .step (modifier_rereads _) fun static? static?' hstatic => ?_
  refine .step (modifier_rereads _) fun accessor? accessor?' haccessor => ?_
  -- `static` and `accessor` are modifiers or the name of the member, whichever follows
  have hmember {word word' : Node} (hword : f.Alike word word') (isStatic : Bool) {Γ : List Node}
      (h : Within (word :: marks) Γ) : Retraces f (fun _ => True) Γ
        (memberNamedBy g start marks word >>= memberOrPlain g start marks isStatic)
        (memberNamedBy g' start' marks' word' >>= memberOrPlain g' start' marks' isStatic) := by
    refine .bind (memberNamedBy_retraces hg hmarks hword h) fun r r' hr => ?_
    cases hr with
    | some hn => exact .pure hn (by grind)
    | none => exact plainMember_retraces hg hmarks (by grind)
  cases haccessor with
  | some hword =>
    cases hstatic with
    | some _ => exact hmember hword _ (by grind)
    | none => exact hmember hword _ (by grind)
  | none =>
    cases hstatic with
    | some hword => exact hmember hword _ (by grind)
    | none => exact plainMember_retraces hg hmarks (by grind)

theorem classBody_rereads (hg : g.Rereads f g') : Rereads f (classBody g) (classBody g') := by
  refine .step (expect_rereads _) fun _ _ _ => ?_
  refine .step (manyUntil_rereads (.isMarkOrEnd _) ?_ hg.limit) fun items items' hitems => ?_
  · have hmember := singleton_rereads (classMember_rereads hg)
    exact .eatIf (eat_rereads _) nil_rereads.frame hmember.frame
  · exact .step (discard_rereads (eat_rereads _)) fun _ _ _ => .pure hitems (by grind)

theorem classFrom_retraces (hg : g.Rereads f g') {named : Bool} {decorators decorators' : List Node}
    (hdecorators : f.AlikeAll decorators decorators') (h : Within decorators Γ) :
    Retraces f F Γ (classFrom g named start decorators)
      (classFrom g' named start' decorators') := by
  refine .within { } (.step (expectWord_rereads _) fun _ _ _ => ?_)
  -- the four ways through the head of a class go on with its members
  have hmembers {F : State → Prop} {Γ' name name' parent parent' : List Node}
      (hname : f.AlikeAll name name') (hparent : f.AlikeAll parent parent')
      (h' : Within (name ++ (parent ++ Γ)) Γ') : Retraces f F Γ' (do
        let members ← classBody g
        node .classDefinition start (name ++ decorators ++ members ++ parent)) (do
        let members ← classBody g'
        node .classDefinition start' (name' ++ decorators' ++ members ++ parent')) := by
    refine .step (classBody_rereads hg) fun members members' hmembers => ?_
    exact .node nofun (.append (.append (.append hname hdecorators) hmembers) hparent) (by grind)
  have hrest {F : State → Prop} {name name' : List Node} (hname : f.AlikeAll name name') :
      Retraces f F (name ++ Γ) (do
        let parent ←
          if ← eatWord "extends" then (do return [← g.parse .leftHandSide]) else pure []
        if ← eatWord "extends" then discard (g.parse .leftHandSide)
        let members ← classBody g
        node .classDefinition start (name ++ decorators ++ members ++ parent)) (do
        let parent ←
          if ← eatWord "extends" then (do return [← g'.parse .leftHandSide]) else pure []
        if ← eatWord "extends" then discard (g'.parse .leftHandSide)
        let members ← classBody g'
        node .classDefinition start' (name' ++ decorators' ++ members ++ parent)) := by
    refine .eatIf (eatWord_rereads _) ?_ ?_
    · refine .step (singleton_rereads hg.leftHandSide) fun parent parent' hparent => ?_
      refine .eatIf (eatWord_rereads _) ?_ (hmembers hname hparent (by grind))
      exact .step (discard_rereads hg.leftHandSide) fun _ _ _ => hmembers hname hparent (by grind)
    · refine .step nil_rereads fun parent parent' hparent => ?_
      refine .eatIf (eatWord_rereads _) ?_ (hmembers hname hparent (by grind))
      exact .step (discard_rereads hg.leftHandSide) fun _ _ _ => hmembers hname hparent (by grind)
  refine .ite ?_ ?_
  · exact .step (singleton_rereads (bindingIdentifier_rereads _))
      fun name name' hname => hrest hname
  · exact .step (optionalBindingIdentifier_rereads _) fun name name' hname => hrest hname

end AmdModules.Script.Parser
