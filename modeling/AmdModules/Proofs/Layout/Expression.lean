import AmdModules.Proofs.Layout.Function
import AmdModules.Script.Parser.Expression

/-!
# Expressions

From operands to assignments. An operand that is only passed on is still the last thing read, so a
name or a string that comes out of all levels of the grammar is known to end where the parser
stands.
-/

set_option autoImplicit false

namespace AmdModules.Script.Parser

open Text Yields

variable {text : List Char} {g : Grammar} {lo start : Nat} {F : State → Prop} {Γ Γ₀ : List Node}

theorem missing_lays : Lays text missing :=
  fun _ => .step forgive_lays fun _ _ => .position fun _ hhere => .form rfl hhere (.refl _)

/-! ## Operands -/

theorem parenthesizedFrom_tracks {items : List Node} (hstart : Starts text lo start)
    (h : Within (items ++ Γ₀) Γ) :
    Tracks text lo F Γ (parenthesizedFrom start items) (Leaves text lo Γ₀) := by
  refine .ite .refuse ?_
  split
  · exact .refuse
  · exact .node rfl hstart h
  · exact .node rfl hstart (.mk rfl h)

/-- Parameters of an arrow that were read as arguments. -/
theorem arrowParameters_tracks (hg : g.Lays text) {async : Bool} {items : List Node}
    (hstart : Starts text lo start) (h : Within (items ++ Γ₀) Γ) :
    Tracks text lo F Γ (match asParameters items with
      | some items => arrowFrom g async start items
      | none => refuse) (Leaves text lo Γ₀) := by
  split
  · rename_i items' hitems
    have hwithin := elementsAsPatterns_within items hitems
    exact arrowFrom_tracks hg hstart (.trans (.append hwithin (.refl _)) h)
  · exact .refuse

theorem parenthesized_lays (hg : g.Lays text) (mayBeArrow : Bool) :
    Lays text (parenthesized g none mayBeArrow) := by
  intro lo
  refine .position fun start hstart => ?_
  refine .step (allowingIn_lays (arguments_lays hg)) fun items _ => .readIf (.isMark _) ?_ ?_
  · refine .read .token fun t => .ite .refuse (.step advance_lays fun _ _ => ?_)
    exact arrowParameters_tracks hg hstart (.refl _)
  · exact parenthesizedFrom_tracks hstart (.refl _)

/-- Behind the name `async`: an arrow function or a call. -/
theorem asyncParenthesized_tracks (hg : g.Lays text) (mayBeArrow : Bool) {name : Node}
    (hname : begins text lo name) :
    Tracks text lo (ends text · name) (name :: Γ) (parenthesized g (some name) mayBeArrow)
      (Leaves text lo Γ) := by
  refine .pureBind (.bindPost (.allowingIn (arguments_tracks hg hname)) fun items => ?_)
  refine .readIf (.isMark _) (.uncall ?_) (.call hname.1)
  refine .read .token fun t => .ite .refuse (.step advance_lays fun _ _ => ?_)
  exact arrowParameters_tracks hg hname.1 (by grind)

theorem identifierOrArrow_lays (hg : g.Lays text) (mayBeArrow : Bool) :
    Lays text (identifierOrArrow g mayBeArrow) := by
  intro lo
  refine .position fun start hstart => .context fun c _ => ?_
  refine .step (identifier_lays _ _) fun name hname => .read .token fun t => ?_
  refine .read (.namesSomething _) fun b => ?_
  refine .ite (.read .peek fun following => .ite ?_ ?_) (.ite ?_ ?_)
  · exact .pure (fun _ h => h) hname (.refl _)
  · refine .step (bindingIdentifier_lays _) fun item _ => .step (expect_lays _) fun _ _ => ?_
    exact arrowFrom_tracks hg hstart (by grind)
  · exact .step advance_lays fun _ _ => arrowFrom_tracks hg hstart (by grind)
  · exact .pure (fun _ h => h) hname (.refl _)

theorem primaryWord_lays (hg : g.Lays text) (word : String) (mayBeArrow : Bool) :
    Lays text (primaryWord g word mayBeArrow) := by
  intro lo
  refine .position fun start hstart => ?_
  split
  · exact leaf_lays rfl lo
  · exact leaf_lays rfl lo
  · exact leaf_lays rfl lo
  · exact leaf_lays rfl lo
  · exact functionExpression_tracks hg hstart
  · exact classFrom_tracks hg hstart (.refl _)
  · exact identifierOrArrow_lays hg _ lo
  · refine .read .peek fun following => .ite ?_ (.ite ?_ ?_)
    · exact .step advance_lays fun _ _ => functionExpression_tracks hg hstart
    · exact .step (leaf_lays rfl) fun name hname => asyncParenthesized_tracks hg _ hname
    · refine .read .token fun t => .readIf (.namesSomething _) ?_ .refuse
      exact identifierOrArrow_lays hg _ lo

theorem primary_lays (hg : g.Lays text) : Lays text (primary g) := by
  intro lo
  refine .look fun t ht _ => .context fun c _ => ?_
  dsimp only
  split
  · exact (primaryWord_lays hg _ _).frame
  · exact (leaf_lays rfl).frame
  · exact (leaf_lays rfl).frame
  · exact (arrayLiteral_lays hg).frame
  · exact (objectLiteral_lays hg).frame
  · exact (parenthesized_lays hg _).frame
  · exact (template_lays hg _).frame
  · rename_i hslash
    exact .conseq regexp_tracks fun s _ hs hΓ => ⟨.inl (by rw [hs, hslash]), hΓ⟩
  · rename_i hslash
    exact .conseq regexp_tracks fun s _ hs hΓ => ⟨.inr (by rw [hs, hslash]), hΓ⟩
  · exact privateName_lays.frame
  · -- no dialect with markup is read here
    refine .context fun c' hc' => ?_
    rw [hc']
    exact .refuse
  · refine .step (decorators_lays hg) fun marks _ => .readIf (.isWord _) ?_ .refuse
    exact classFrom_tracks hg ht (.refl _)
  · exact .refuse

theorem constructed_lays (hg : g.Lays text) : Lays text (constructed g) := by
  intro lo
  refine .position fun start hstart => .eatIf (eatWord_eats _) (.eatIf (eat_eats _) ?_ ?_)
    (.readIf (.isWord _) ?_ (.readIf (.isWord _) ?_ ?_))
  · refine .eatIf (eatWord_eats _) ?_ .refuse
    exact .bindNode [] rfl hstart (.refl _) fun n hn => subscripts_tracks hg _ hn
  · refine .step hg.constructed fun callee hcallee => ?_
    refine .ite ?_ (.ite .refuse (.readIf (.isMark _) ?_ ?_))
    · exact .pure (fun _ h => h) hcallee (.refl _)
    · refine .step (arguments_lays hg) fun items _ => ?_
      exact .bindNode [] rfl hstart (by grind) fun n hn => subscripts_tracks hg _ hn
    · exact .node rfl hstart (.refl _)
  · exact .step (leaf_lays rfl) fun n hn => subscripts_tracks hg _ hn
  · exact .step (leaf_lays rfl) fun n hn => subscripts_tracks hg _ hn
  · refine .step (primary_lays hg) fun operand hoperand => .ite ?_ (subscripts_tracks hg _ hoperand)
    exact .pure (fun _ h => h) hoperand (.refl _)

theorem leftHandSide_lays (hg : g.Lays text) : Lays text (leftHandSide g) := by
  intro lo
  refine .position fun start hstart => .readIf (.isWord _) ?_ (.readIf (.isWord _) ?_ ?_)
  · exact .step (leaf_lays rfl) fun n hn => subscripts_tracks hg _ hn
  · exact .step (leaf_lays rfl) fun n hn => subscripts_tracks hg _ hn
  · refine .step (constructed_lays hg) fun callee hcallee => .ite ?_ (.readIf (.isMark _) ?_ ?_)
    · exact .pure (fun _ h => h) hcallee (.refl _)
    · refine .bindPost (arguments_tracks hg hcallee) fun items => ?_
      rcases hkind : callKind callee items with ⟨kind, parts⟩
      exact .bind (.callNode hkind hstart) fun n hn => subscripts_tracks hg _ hn
    · exact .pure (fun _ h => h) hcallee (.refl _)

/-! ## Operators -/

theorem awaitExpression_lays (hg : g.Lays text) : Lays text (awaitExpression g) := by
  intro lo
  refine .position fun start hstart => .step advance_lays fun _ _ => .read .token fun t => ?_
  refine .context fun c _ => .ite .refuse (.ite (.read .state fun s => .ite .refuse ?_) ?_)
  · exact .node rfl hstart (.refl _)
  · exact .step hg.unary fun operand _ => .node rfl hstart (.refl _)

theorem unary_lays (hg : g.Lays text) : Lays text (unary g) := by
  intro lo
  refine .token fun t ht => ?_
  dsimp only
  split
  · refine .step advance_lays fun _ _ => .step hg.unary fun operand _ => ?_
    exact .form rfl ht (.refl _)
  · refine .step advance_lays fun _ _ => ?_
    refine .step (orElse_lays hg.unary missing_lays) fun operand _ => ?_
    exact .form rfl ht (.refl _)
  · refine .ite (awaitExpression_lays hg lo) ?_
    refine .step (leftHandSide_lays hg) fun operand hoperand => ?_
    refine .read .token fun t' => .ite (.pure (fun _ h => h) hoperand (.refl _)) ?_
    split
    · exact .step advance_lays fun _ _ => .node rfl ht (.refl _)
    · exact .pure (fun _ h => h) hoperand (.refl _)

theorem operators_tracks (hg : g.Lays text) {floor : Nat} {left : Node}
    (hleft : begins text lo left) :
    Tracks text lo (ends text · left) (left :: Γ) (operators g floor left) (Leaves text lo Γ) := by
  refine .read .context fun c => .read .token fun t => ?_
  split
  · exact .pure (fun _ h => h) hleft (.refl _)
  · refine .ite (.pure (fun _ h => h) hleft (.refl _)) ?_
    refine .step advance_lays fun _ _ => .ite .refuse ?_
    refine .step hg.unary fun operand hoperand => ?_
    refine .bind (hg.operators (left :: Γ) _ operand hoperand) fun right _ => ?_
    refine .conseq (hg.operators Γ _ _ (begins_mk rfl hleft.1)) fun s _ _ hΓ => ?_
    exact ⟨ends_mk rfl s, hΓ.within (.mk rfl (by grind))⟩

theorem binary_lays (hg : g.Lays text) : Lays text (binary g) := by
  intro lo
  refine .step (orElse_lays hg.unary fun lo => ?_) fun left hleft => .ite ?_ ?_
  · refine .read .context fun c => .read .token fun t => ?_
    split
    · exact missing_lays lo
    · exact .refuse
  · exact .pure (fun _ h => h) hleft (.refl _)
  · exact hg.operators [] _ left hleft

theorem conditional_lays (hg : g.Lays text) : Lays text (conditional g) := by
  intro lo
  refine .position fun start hstart => .step (binary_lays hg) fun test htest => .ite ?_ ?_
  · exact .pure (fun _ h => h) htest (.refl _)
  · refine .eatIf (eat_eats _) ?_ (.pure (fun _ h => h) htest (.refl _))
    refine .step (allowingIn_lays hg.assignment) fun yes _ => .step (expect_lays _) fun _ _ => ?_
    exact .step hg.assignment fun no _ => .node rfl hstart (by grind)

theorem yieldExpression_lays (hg : g.Lays text) : Lays text (yieldExpression g) := by
  intro lo
  refine .position fun start hstart => .step advance_lays fun _ _ => .context fun c _ => ?_
  refine .ite .refuse (.read .token fun t => .ite (.node rfl hstart (.refl _)) ?_)
  refine .step (eat_eats _).lays fun delegates _ => .step hg.assignment fun operand _ => ?_
  exact .node rfl hstart (.refl _)

theorem assignedTo_within {operator : String} {left target : Node}
    (h : assignedTo operator left = some target) : Within [target] [left] := by
  unfold assignedTo at h
  split at h
  · obtain ⟨target', htarget, h⟩ := Option.bind_eq_some_iff.mp h
    obtain ⟨-, h⟩ := Option.ite_none_right_eq_some.mp h
    cases h
    exact asPattern_within left htarget
  · obtain ⟨-, h⟩ := Option.ite_none_right_eq_some.mp h
    cases h
    exact .refl _

theorem assignment_lays (hg : g.Lays text) : Lays text (assignment g) := by
  intro lo
  refine .token fun t ht => .context fun c _ => .ite (yieldExpression_lays hg lo) ?_
  refine .step (within_lays (fun _ => rfl) (conditional_lays hg)) fun left hleft => ?_
  have hpass : Tracks text lo (ends text · left) (nodes left ++ []) (pure left : Parser Node)
      (Leaves text lo []) := .pure (fun _ h => h) hleft (.refl _)
  split
  · exact hpass
  · exact hpass
  · exact hpass
  · exact hpass
  · exact hpass
  · refine .read .token fun t' => ?_
    split
    · exact hpass
    · split
      · exact .refuse
      · rename_i target htarget
        have hwithin := assignedTo_within htarget
        refine .step advance_lays fun _ _ => .step hg.assignment fun right _ => ?_
        exact .node rfl ht (by grind)

end AmdModules.Script.Parser
