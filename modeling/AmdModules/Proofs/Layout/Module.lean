import AmdModules.Proofs.Layout.Statement
import AmdModules.Script.Program

/-!
# Imports, exports and the grammar as a whole

With imports and exports every production is covered, and the grammar lays out what it reads however
often it is unrolled.
-/

set_option autoImplicit false

namespace AmdModules.Script

open Text Yields

namespace Parser

variable {text : List Char} {g : Grammar} {lo start : Nat} {F : State → Prop} {Γ : List Node}

/-! ## Imports -/

theorem exportedName_lays : Lays text exportedName := by
  intro lo
  refine .read .token fun t => ?_
  split
  · exact leaf_lays rfl lo
  · exact leaf_lays rfl lo
  · exact .refuse

theorem moduleString_lays : Lays text moduleString := by
  intro lo
  refine .read .token fun t => ?_
  split
  · exact advance_lays lo
  · exact .refuse

theorem attributes_lays (hg : g.Lays text) : Lays text (attributes g) := by
  intro lo
  refine .read .token fun t => .ite (nil_lays lo) (.step (eatWord_eats _).lays fun b _ => ?_)
  refine .step (eatWord_eats _).lays fun b' _ => .ite (.readIf (.isMark _) ?_ .refuse) ?_
  · exact (singleton_lays (objectLiteral_lays hg)).frame
  · exact nil_lays.frame

theorem fromClause_lays (hg : g.Lays text) : Lays text (fromClause g) := by
  intro lo
  refine .step (expectWord_lays _) fun _ _ => .step moduleString_lays fun _ _ => ?_
  refine .step (attributes_lays hg) fun parts _ => .step expectSemicolon_lays fun _ _ => ?_
  exact .pure (fun _ _ => trivial) trivial (.refl _)

theorem importedName_lays : Lays text importedName := by
  intro lo
  refine .step exportedName_lays fun name _ => .eatIf (eatWord_eats _) ?_ ?_
  · exact (discard_lays (bindingIdentifier_lays _) lo).shed (.nil _)
  · refine .context fun c _ => ?_
    split
    · exact .ite .refuse (.pure (fun _ _ => trivial) trivial (.nil _))
    · exact .refuse

theorem namesInBraces_lays {item : Parser Unit} (hitem : Lays text item) :
    Lays text (namesInBraces g item) := by
  intro lo
  have hnames : Lays text (do
      item
      separator "\x7d"
      return ([] : List Node)) := by
    intro lo
    refine .step hitem fun _ _ => .step (separator_lays _) fun _ _ => ?_
    exact .pure (fun _ _ => trivial) trivial (.nil _)
  refine .step (expect_lays _) fun _ _ => ?_
  refine .step (discard_lays (manyUntil_lays (.isMarkOrEnd _) hnames _)) fun _ _ => ?_
  exact expect_lays _ lo |>.shed (.nil _)

theorem importedNames_lays : Lays text (importedNames g) := by
  intro lo
  refine .eatIf (eat_eats _) ?_ (.readIf (.isMark _) ?_ ?_)
  · refine .step (expectWord_lays _) fun _ _ => ?_
    exact (discard_lays (bindingIdentifier_lays _) lo).shed (.nil _)
  · exact namesInBraces_lays importedName_lays lo
  · exact .pure (fun _ _ => trivial) trivial (.nil _)

theorem importDeclaration_lays (hg : g.Lays text) : Lays text (importDeclaration g) := by
  intro lo
  refine .position fun start hstart => .step enterModule_lays fun _ _ => ?_
  refine .step (expectWord_lays _) fun _ _ => .read .token fun t => ?_
  split
  · refine .step advance_lays fun _ _ => .step (attributes_lays hg) fun parts _ => ?_
    exact .step expectSemicolon_lays fun _ _ => .node rfl hstart (.refl _)
  · have hnames {F : State → Prop} : Tracks text lo F [] (do
        importedNames g
        let parts ← fromClause g
        node .importDeclaration start parts) (Leaves text lo []) := by
      refine .step importedNames_lays fun _ _ => .step (fromClause_lays hg) fun parts _ => ?_
      exact .node rfl hstart (.refl _)
    refine .read .token fun t' => .read (.namesSomething _) fun b => .ite ?_ hnames
    refine .step (discard_lays (bindingIdentifier_lays _)) fun _ _ => ?_
    exact .read (.isWord _) fun b => .ite (.step (expect_lays _) fun _ _ => hnames) hnames

/-! ## Exports -/

theorem exportedPair_lays : Lays text exportedPair := by
  intro lo
  refine .step (discard_lays exportedName_lays) fun _ _ => .eatIf (eatWord_eats _) ?_ ?_
  · exact (discard_lays exportedName_lays).frame
  · exact .pure (fun _ _ => trivial) trivial (.nil _)

theorem exportDefaultFrom_tracks (hg : g.Lays text) (hstart : Starts text lo start)
    {marks : List Node} (hmarks : Within marks Γ) :
    Tracks text lo F Γ (exportDefaultFrom g start marks) (Leaves text lo []) := by
  refine .step (decorators_lays hg) fun later _ => .read .peek fun following => ?_
  have hall : Within ((marks ++ later) ++ []) (nodes later ++ Γ) := by grind
  refine .readIf (.isWord _) ?_ (.readIf (.isWord _) ?_ (.read (.isWord _) fun b => .ite ?_ ?_))
  · refine .position fun here hhere => ?_
    exact .bind (classFrom_tracks hg hhere hall) fun inner _ => .node rfl hstart (.refl _)
  · refine .position fun here hhere => ?_
    refine .bind (functionDeclaration_tracks hg hhere hall) fun inner _ => ?_
    exact .node rfl hstart (.refl _)
  · refine .position fun here hhere => .step advance_lays fun _ _ => ?_
    refine .bind (functionDeclaration_tracks hg hhere hall) fun inner _ => ?_
    exact .node rfl hstart (.refl _)
  · refine .step (allowingIn_lays hg.assignment) fun value _ => ?_
    exact .step expectSemicolon_lays fun _ _ => .node rfl hstart (by grind)

theorem exportedNames_tracks (hg : g.Lays text) (hstart : Starts text lo start) (first : Bool) :
    Tracks text lo F Γ (exportedNames g start first) (Leaves text lo []) := by
  have hfrom {F : State → Prop} {Γ : List Node} : Tracks text lo F Γ (do
      let parts ← fromClause g
      node .exportNames start parts) (Leaves text lo []) :=
    .step (fromClause_lays hg) fun parts _ => .node rfl hstart (by grind)
  have hnames {F : State → Prop} {Γ : List Node} : Tracks text lo F Γ (do
      if first && (← eat "*") then
        expectWord "as"
        discard exportedName
        let parts ← fromClause g
        node .exportNames start parts
      else
        namesInBraces g exportedPair
        if ← isWord "from" then
          let parts ← fromClause g
          node .exportNames start parts
        else
          discard eatSemicolon
          node .exportNames start []) (Leaves text lo []) := by
    refine .step (eat_eats _).lays fun b _ => .ite ?_ ?_
    · refine .step (expectWord_lays _) fun _ _ => ?_
      exact .step (discard_lays exportedName_lays) fun _ _ => hfrom
    · refine .step (namesInBraces_lays exportedPair_lays) fun _ _ => .readIf (.isWord _) hfrom ?_
      refine .step (discard_lays eatSemicolon_eats.lays) fun _ _ => ?_
      exact .node rfl hstart (.nil _)
  refine .read (.isWord _) fun b => .ite hfrom (.ite ?_ hnames)
  exact .step (expect_lays _) fun _ _ => hnames

theorem IsRead.reexportsDefault : IsRead reexportsDefault :=
  .bind .token fun _ => .bind .peek fun _ => .pure _

theorem exportDeclaration_tracks (hg : g.Lays text) {marks : List Node} (hmarks : Within marks Γ) :
    Tracks text lo F Γ (exportDeclaration g marks) (Leaves text lo []) := by
  refine .position fun start hstart => .step enterModule_lays fun _ _ => ?_
  refine .step (expectWord_lays _) fun _ _ => .readIf .atEnd .refuse ?_
  refine .eatIf (eat_eats _) (.readIf (.isWord _) ?_ ?_) (.eatIf (eatWord_eats _) ?_ ?_)
  · exact .step (fromClause_lays hg) fun parts _ => .node rfl hstart (by grind)
  · refine .step (expectWord_lays _) fun _ _ => ?_
    exact .step (discard_lays exportedName_lays) fun _ _ => exportedNames_tracks hg hstart true
  · refine .readIf .reexportsDefault (exportedNames_tracks hg hstart true) ?_
    exact exportDefaultFrom_tracks hg hstart (by grind)
  · refine .step (decorators_lays hg) fun later _ => .ite .refuse ?_
    refine .token fun t ht => .read .peek fun following => ?_
    have hdeclared {F : State → Prop} {Γ : List Node} {p : Parser Node}
        (hp : Tracks text lo F Γ p (Leaves text lo [])) : Tracks text lo F Γ (do
          let inner ← p
          node .exportDeclaration start [inner]) (Leaves text lo []) :=
      .bind hp fun inner _ => .node rfl hstart (.refl _)
    have hall : Within ((marks ++ later) ++ []) (nodes later ++ Γ) := by grind
    split
    · exact hdeclared (classFrom_tracks hg ht hall)
    · exact hdeclared (functionDeclaration_tracks hg ht hall)
    · exact hdeclared ((variableList_lays hg _ _ lo).shed (.nil _))
    · exact hdeclared ((variableList_lays hg _ _ lo).shed (.nil _))
    · refine .ite (.step advance_lays fun _ _ => ?_) (.ite ?_ ?_)
      · exact hdeclared (functionDeclaration_tracks hg ht hall)
      · exact hdeclared ((variableList_lays hg _ _ lo).shed (.nil _))
      · refine .step (discard_lays (identifier_lays _ _)) fun _ _ => ?_
        exact exportedNames_tracks hg hstart true
    · exact exportedNames_tracks hg hstart false

/-! ## The grammar -/

theorem statement_lays (hg : g.Lays text) (declarations : Bool) :
    Lays text (statement g declarations) := by
  refine fun lo => .restart fun start hend => .context fun c _ => .within (fun _ => rfl) ?_
  refine .step (decorators_lays hg) fun marks _ => ?_
  refine .readIf (.isWord _) ?_ (.readIf (.isWord _) ?_ ?_)
  · refine .read .peek fun following => .ite (importExpressionStatement_tracks hg hend) ?_
    exact .ite ((importDeclaration_lays hg start).shed (.nil _)) .refuse
  · exact .ite (exportDeclaration_tracks hg (by grind)) .refuse
  · exact plainStatement_tracks hg hend declarations (by grind)

end Parser

/-- **The grammar lays out what it reads**, however often it is unrolled. -/
theorem grammar_lays (text : List Char) (n : Nat) : (grammar n).Lays text := by
  induction n with
  | zero =>
    exact {
      statement := fun _ _ => .exhausted
      assignment := fun _ => .exhausted
      unary := fun _ => .exhausted
      constructed := fun _ => .exhausted
      leftHandSide := fun _ => .exhausted
      binding := fun _ _ => .exhausted
      operators := fun _ _ _ _ => .exhausted }
  | succ n ih =>
    exact {
      statement := Parser.statement_lays ih
      assignment := Parser.assignment_lays ih
      unary := Parser.unary_lays ih
      constructed := Parser.constructed_lays ih
      leftHandSide := Parser.leftHandSide_lays ih
      binding := Parser.binding_lays ih
      operators := fun _ _ _ hleft => Parser.operators_tracks ih hleft }

end AmdModules.Script
