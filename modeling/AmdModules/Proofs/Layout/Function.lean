import AmdModules.Proofs.Layout.Member
import AmdModules.Script.Parser.Class

/-!
# Functions, literals and classes

Productions that come with trees in hand, such as the decorators of a function or the name of a
member, take them in and leave what else was held.
-/

set_option autoImplicit false

namespace AmdModules.Script.Parser

open Text Yields

variable {text : List Char} {g : Grammar} {lo start : Nat} {F : State → Prop} {Γ Γ₀ : List Node}

/-! ## Functions -/

theorem braced_lays (hg : g.Lays text) (directives : Bool) : Lays text (braced g directives) := by
  intro lo
  refine .step (expect_lays _) fun _ _ => .read .token fun t => ?_
  refine .step (within_lays (fun _ => rfl)
    (manyUntil_lays (.isMarkOrEnd _) (singleton_lays (hg.statement _)) _)) fun items _ => ?_
  refine .step (discard_lays (eat_eats _).lays) fun _ _ => ?_
  exact .pure (fun _ _ => trivial) trivial (.refl _)

theorem functionBody_lays (hg : g.Lays text) (async generator : Bool) :
    Lays text (functionBody g async generator) := by
  intro lo
  refine .position fun start hstart => ?_
  exact .step (within_lays (fun _ => rfl) (braced_lays hg _)) fun items _ =>
    .node rfl hstart (.refl _)

theorem parameter_lays (hg : g.Lays text) : Lays text (parameter g) := by
  intro lo
  refine .step (decorators_lays hg) fun marks _ => .position fun start hstart => ?_
  refine .eatIf (eat_eats _) ?_ ?_
  · refine .step (hg.binding _) fun inner hinner => .eatIf (eat_eats _) ?_ ?_
    · refine .step hg.assignment fun right _ => ?_
      refine .bindNode marks rfl hinner.1 (by grind) fun inner' _ => ?_
      refine .bindNode marks rfl hstart (by grind) fun n _ => ?_
      exact .pure (fun _ _ => trivial) trivial (by grind)
    · refine .bindNode marks rfl hstart (by grind) fun n _ => ?_
      exact .pure (fun _ _ => trivial) trivial (by grind)
  · refine .step (hg.binding _) fun left _ => .eatIf (eat_eats _) ?_ ?_
    · refine .step hg.assignment fun right _ => ?_
      refine .bindNode marks rfl hstart (by grind) fun n _ => ?_
      exact .pure (fun _ _ => trivial) trivial (by grind)
    · exact .pure (fun _ _ => trivial) trivial (by grind)

theorem parameters_lays (hg : g.Lays text) (async generator : Bool) :
    Lays text (parameters g async generator) := by
  intro lo
  refine .step (expect_lays _) fun _ _ => ?_
  refine .step (within_lays (fun _ => rfl) (manyUntil_lays (.isMarkOrEnd _) (fun lo => ?_) _))
    fun items _ => ?_
  · refine .step (parameter_lays hg) fun item _ => .step (separator_lays _) fun _ _ => ?_
    exact .pure (fun _ _ => trivial) trivial (.refl _)
  · exact .step (expect_lays _) fun _ _ => .pure (fun _ _ => trivial) trivial (.refl _)

theorem functionFrom_tracks (hg : g.Lays text) {async generator : Bool}
    {name decorators : List Node}
    (hstart : Starts text lo start) (h : Within (name ++ decorators ++ Γ₀) Γ) :
    Tracks text lo F Γ (functionFrom g async generator start name decorators)
      (Leaves text lo Γ₀) := by
  refine .step (parameters_lays hg _ _) fun items _ => ?_
  refine .step (functionBody_lays hg _ _) fun body _ => ?_
  exact .node rfl hstart (by grind)

theorem functionExpression_tracks (hg : g.Lays text) {async : Bool}
    (hstart : Starts text lo start) :
    Tracks text lo F Γ (functionExpression g async start) (Leaves text lo Γ) := by
  refine .step (expectWord_lays _) fun _ _ => .step (eat_eats _).lays fun generator _ => ?_
  refine .step (within_lays (fun _ => rfl) (optionalBindingIdentifier_lays _)) fun name _ => ?_
  exact functionFrom_tracks hg hstart (by grind)

theorem functionDeclaration_tracks (hg : g.Lays text) {async named : Bool} {decorators : List Node}
    (hstart : Starts text lo start) (h : Within (decorators ++ Γ₀) Γ) :
    Tracks text lo F Γ (functionDeclaration g async named start decorators)
      (Leaves text lo Γ₀) := by
  refine .step (expectWord_lays _) fun _ _ => .step (eat_eats _).lays fun generator _ => ?_
  refine .ite ?_ ?_
  · refine .step (singleton_lays (bindingIdentifier_lays _)) fun name _ => ?_
    exact functionFrom_tracks hg hstart (by grind)
  · refine .step (optionalBindingIdentifier_lays _) fun name _ => ?_
    exact functionFrom_tracks hg hstart (by grind)

theorem arrowFrom_tracks (hg : g.Lays text) {async : Bool} {items : List Node}
    (hstart : Starts text lo start) (h : Within (items ++ Γ₀) Γ) :
    Tracks text lo F Γ (arrowFrom g async start items) (Leaves text lo Γ₀) := by
  refine .readIf (.isMark _) ?_ ?_
  · exact .step (functionBody_lays hg _ _) fun body _ => .node rfl hstart (by grind)
  · refine .step (within_lays (fun _ => rfl) hg.assignment) fun body _ => ?_
    exact .node rfl hstart (by grind)

/-! ## Array and object literals -/

theorem arrayLiteral_lays (hg : g.Lays text) : Lays text (arrayLiteral g) := by
  intro lo
  refine .position fun start hstart => .step (expect_lays _) fun _ _ => ?_
  refine .step (manyUntil_lays (.isMarkOrEnd _) (fun lo => ?_) _) fun items _ => ?_
  · refine .position fun here hhere => .eatIf (eat_eats _) ?_ ?_
    · exact .pure (fun _ _ => trivial) trivial (.mk rfl (.refl _))
    · refine .step (element_lays hg) fun item _ => .step (separator_lays _) fun _ _ => ?_
      exact .pure (fun _ _ => trivial) trivial (.refl _)
  · exact .step (expect_lays _) fun _ _ => .node rfl hstart (.refl _)

theorem methodFrom_tracks (hg : g.Lays text) {async generator : Bool} {key : Node}
    (hstart : Starts text lo start) :
    Tracks text lo F (key :: Γ) (methodFrom g async generator start key) (Leaves text lo Γ) := by
  refine .bind (functionFrom_tracks hg hstart (.refl (key :: Γ))) fun function _ => ?_
  exact .node rfl hstart (by grind)

theorem getterFrom_tracks (hg : g.Lays text) {key : Node} (hstart : Starts text lo start) :
    Tracks text lo F (key :: Γ) (getterFrom g start key) (Leaves text lo Γ) := by
  refine .step (discard_lays (parameters_lays hg _ _)) fun _ _ => ?_
  exact .step (functionBody_lays hg _ _) fun body _ => .node rfl hstart (by grind)

theorem setterFrom_tracks (hg : g.Lays text) {key : Node} (hstart : Starts text lo start) :
    Tracks text lo F (key :: Γ) (setterFrom g start key) (Leaves text lo Γ) := by
  refine .step (parameters_lays hg _ _) fun items _ => ?_
  refine .step (functionBody_lays hg _ _) fun body _ => .node rfl hstart ?_
  intro x
  have htake : occurrences items x
      = occurrences (items.take 2) x + occurrences (items.drop 2) x := by
    rw [← occurrences_append, List.take_append_drop]
  grind

theorem modifiedProperty_tracks (hg : g.Lays text) {word : String} (hstart : Starts text lo start) :
    Tracks text lo F Γ (modifiedProperty g start word) (Leaves text lo Γ) := by
  unfold modifiedProperty
  split
  · exact .step (propertyName_lays hg) fun key _ => getterFrom_tracks hg hstart
  · exact .step (propertyName_lays hg) fun key _ => setterFrom_tracks hg hstart
  · refine .step (eat_eats _).lays fun generator _ => ?_
    exact .step (propertyName_lays hg) fun key _ => methodFrom_tracks hg hstart
  · exact .refuse

theorem property_lays (hg : g.Lays text) : Lays text (property g) := by
  intro lo
  refine .position fun start hstart => .eatIf (eat_eats _) ?_ (.eatIf (eat_eats _) ?_ ?_)
  · exact .step (allowingIn_lays hg.assignment) fun inner _ => .node rfl hstart (.refl _)
  · exact .step (propertyName_lays hg) fun key _ => methodFrom_tracks hg hstart
  · refine .step (propertyName_lays hg) fun key _ => ?_
    refine .eatIf (eat_eats _) ?_ (.readIf (.isMark _) ?_ ?_)
    · exact .step (allowingIn_lays hg.assignment) fun value _ => .node rfl hstart (by grind)
    · exact methodFrom_tracks hg hstart
    · split
      · refine .step (discard_lays (eat_eats _).lays) fun _ _ => .eatIf (eat_eats _) ?_ ?_
        · exact .step (allowingIn_lays hg.assignment) fun value _ => .node rfl hstart (by grind)
        · refine .read (.isMark _) fun b => .read (.isMark _) fun b' => .ite ?_ ?_
          · exact .node rfl hstart (by grind)
          · exact .shed (modifiedProperty_tracks hg hstart) (.nil _)
      · exact .refuse

theorem objectLiteral_lays (hg : g.Lays text) : Lays text (objectLiteral g) := by
  intro lo
  refine .position fun start hstart => .step (expect_lays _) fun _ _ => ?_
  refine .step (manyUntil_lays (.isMarkOrEnd _) (fun lo => ?_) _) fun items _ => ?_
  · refine .step (property_lays hg) fun item _ => .step (separator_lays _) fun _ _ => ?_
    exact .pure (fun _ _ => trivial) trivial (.refl _)
  · exact .step (expect_lays _) fun _ _ => .node rfl hstart (.refl _)

/-! ## Classes -/

theorem IsRead.atFieldEnd (newLine : Bool) : IsRead (atFieldEnd newLine) := by
  refine .bind (.isMark _) fun b => .bind (.isMark _) fun b' => ?_
  split
  · exact .pure _
  · split
    · exact .atSemicolon
    · exact .isMark _

theorem classMemberName_lays (hg : g.Lays text) : Lays text (classMemberName g) :=
  fun lo => .readIf (.isMark _) (privateName_lays lo) (propertyName_lays hg lo)

theorem classMethodFrom_tracks (hg : g.Lays text) {async generator : Bool} {key : Node}
    {decorators : List Node} (hstart : Starts text lo start)
    (h : Within (key :: decorators ++ Γ₀) Γ) :
    Tracks text lo F Γ (classMethodFrom g async generator start key decorators)
      (Leaves text lo Γ₀) := by
  have hfunction : Within ([] ++ decorators ++ (key :: Γ₀)) Γ := by grind
  refine .bind (functionFrom_tracks hg hstart hfunction) fun function _ => ?_
  exact .node rfl hstart (by grind)

theorem fieldFrom_tracks (hg : g.Lays text) {key : Node} {decorators : List Node}
    (hstart : Starts text lo start) (h : Within (key :: decorators ++ Γ₀) Γ) :
    Tracks text lo F Γ (fieldFrom g start key decorators) (Leaves text lo Γ₀) := by
  refine .ite .refuse (.eatIf (eat_eats _) ?_ ?_)
  · refine .step (singleton_lays (allowingIn_lays hg.assignment)) fun value _ => ?_
    refine .step (discard_lays eatSemicolon_eats.lays) fun _ _ => ?_
    exact .node rfl hstart (by grind)
  · refine .step nil_lays fun value _ => .step (discard_lays eatSemicolon_eats.lays) fun _ _ => ?_
    exact .node rfl hstart (by grind)

theorem constructorFrom_tracks (hg : g.Lays text) {key : Node} (hstart : Starts text lo start)
    (h : Within (key :: Γ₀) Γ) :
    Tracks text lo F Γ (constructorFrom g start key) (Leaves text lo Γ₀) := by
  refine .step (parameters_lays hg _ _) fun items _ => ?_
  exact .step (functionBody_lays hg _ _) fun body _ => .node rfl hstart (by grind)

theorem staticBlockFrom_tracks (hg : g.Lays text) (hstart : Starts text lo start)
    (h : Within Γ₀ Γ) : Tracks text lo F Γ (staticBlockFrom g start) (Leaves text lo Γ₀) := by
  refine .step (within_lays (fun _ => rfl) (braced_lays hg _)) fun items _ => ?_
  exact .node rfl hstart (by grind)

theorem plainMember_tracks (hg : g.Lays text) {marks : List Node} {isStatic : Bool}
    (hstart : Starts text lo start) (h : Within (marks ++ Γ₀) Γ) :
    Tracks text lo F Γ (plainMember g start marks isStatic) (Leaves text lo Γ₀) := by
  refine .read (.isMark _) fun b => .ite (staticBlockFrom_tracks hg hstart (by grind)) ?_
  refine .eatIf (eat_eats _) ?_ ?_
  · refine .step (classMemberName_lays hg) fun key _ => ?_
    exact classMethodFrom_tracks hg hstart (by grind)
  · refine .step (classMemberName_lays hg) fun key _ => .readIf (.isMark _) (.ite ?_ ?_) ?_
    · exact constructorFrom_tracks hg hstart (by grind)
    · exact classMethodFrom_tracks hg hstart (by grind)
    · refine .read .token fun t => .read (.atFieldEnd _) fun b => .read (.atFieldEnd _) fun b' => ?_
      refine .ite (fieldFrom_tracks hg hstart (by grind)) (.ite ?_ (.ite ?_ .refuse))
      · refine .step (eat_eats _).lays fun generator _ => ?_
        refine .step (classMemberName_lays hg) fun key' _ => .ite .refuse ?_
        exact classMethodFrom_tracks hg hstart (by grind)
      · refine .step (classMemberName_lays hg) fun key' _ => ?_
        exact classMethodFrom_tracks hg hstart (by grind)

/-- A modifier that is a name instead makes a member; otherwise the decorators are still in hand. -/
theorem memberNamedBy_tracks (hg : g.Lays text) {marks : List Node} {word : Node}
    (hstart : Starts text lo start) (h : Within (word :: marks) Γ) :
    Tracks text lo F Γ (memberNamedBy g start marks word)
      (fun r s => match r with
        | some member => Leaves text lo [] member s
        | none => Owned text lo s marks) := by
  have hall : Within (word :: marks ++ []) Γ := by grind
  refine .readIf (.isMark _) ?_ (.readIf (.atFieldEnd _) ?_ ?_)
  · refine .bind (classMethodFrom_tracks hg hstart hall) fun n hn => ?_
    exact .give fun s hs hΓ => ⟨hn, hs, hΓ⟩
  · refine .bind (fieldFrom_tracks hg hstart hall) fun n hn => ?_
    exact .give fun s hs hΓ => ⟨hn, hs, hΓ⟩
  · exact .give fun s hs hΓ => hΓ.within (by grind)

theorem modifier_lays (word : String) : Lays text (modifier word) := by
  intro lo
  refine .readIf (.isWord _) (.step (leaf_lays rfl) fun n _ => ?_) ?_
  · exact .pure (fun _ _ => trivial) trivial (.refl _)
  · exact .pure (fun _ _ => trivial) trivial (.refl _)

theorem classMember_lays (hg : g.Lays text) : Lays text (classMember g) := by
  intro lo
  refine .position fun start hstart => .step (decorators_lays hg) fun marks _ => ?_
  refine .step (modifier_lays _) fun static? _ => .step (modifier_lays _) fun accessor? _ => ?_
  -- `static` and `accessor` are modifiers or the name of the member, whichever follows
  have hmember (word : Node) (isStatic : Bool) {Γ : List Node} (h : Within (word :: marks) Γ) :
      Tracks text lo (ends text · accessor?) Γ
        (memberNamedBy g start marks word >>= fun r => match r with
          | some member => return member
          | none => plainMember g start marks isStatic) (Leaves text lo []) := by
    refine .bindPost (memberNamedBy_tracks hg hstart h) fun r => ?_
    cases r with
    | some member => exact .give fun s hs _ => hs
    | none =>
      refine .conseq (plainMember_tracks (F := fun _ => True) hg hstart ?_)
        fun s _ hmarks _ => ⟨trivial, hmarks⟩
      exact (by grind : Within (marks ++ []) marks)
  split
  · exact hmember _ _ (by grind)
  · exact hmember _ _ (by grind)
  · exact plainMember_tracks hg hstart (by grind)

theorem classBody_lays (hg : g.Lays text) : Lays text (classBody g) := by
  intro lo
  refine .step (expect_lays _) fun _ _ => ?_
  refine .step (manyUntil_lays (.isMarkOrEnd _) (fun lo => ?_) _) fun items _ => ?_
  · exact .eatIf (eat_eats _) (nil_lays lo) (singleton_lays (classMember_lays hg) lo)
  · refine .step (discard_lays (eat_eats _).lays) fun _ _ => ?_
    exact .pure (fun _ _ => trivial) trivial (.refl _)

theorem classFrom_tracks (hg : g.Lays text) {named : Bool} {decorators : List Node}
    (hstart : Starts text lo start) (h : Within (decorators ++ Γ₀) Γ) :
    Tracks text lo F Γ (classFrom g named start decorators) (Leaves text lo Γ₀) := by
  refine .within (fun _ => rfl) (.step (expectWord_lays _) fun _ _ => ?_)
  -- the four ways through the head of a class go on with its members
  have hmembers {F : State → Prop} {Γ' : List Node} {name parent : List Node}
      (h' : Within (name ++ (parent ++ Γ)) Γ') : Tracks text lo F Γ' (do
        let members ← classBody g
        node .classDefinition start (name ++ decorators ++ members ++ parent))
        (Leaves text lo Γ₀) :=
    .step (classBody_lays hg) fun members _ => .node rfl hstart (by grind)
  have hrest {F : State → Prop} (name : List Node) : Tracks text lo F (name ++ Γ) (do
      let parent ←
        if ← eatWord "extends" then (do return [← g.parse .leftHandSide]) else pure []
      if ← eatWord "extends" then discard (g.parse .leftHandSide)
      let members ← classBody g
      node .classDefinition start (name ++ decorators ++ members ++ parent))
      (Leaves text lo Γ₀) := by
    refine .eatIf (eatWord_eats _) ?_ ?_
    · refine .step (singleton_lays hg.leftHandSide) fun parent _ => .eatIf (eatWord_eats _) ?_ ?_
      · exact .step (discard_lays hg.leftHandSide) fun _ _ => hmembers (by grind)
      · exact hmembers (by grind)
    · refine .step nil_lays fun parent _ => .eatIf (eatWord_eats _) ?_ ?_
      · exact .step (discard_lays hg.leftHandSide) fun _ _ => hmembers (by grind)
      · exact hmembers (by grind)
  refine .ite ?_ ?_
  · exact .step (singleton_lays (bindingIdentifier_lays _)) fun name _ => hrest name
  · exact .step (optionalBindingIdentifier_lays _) fun name _ => hrest name

end AmdModules.Script.Parser
