import AmdModules.Proofs.Layout.Tracking

/-!
# Patterns keep their landmarks

Taking an expression as a pattern drops trees and renames nodes that are no landmarks, so what is
left occurs no more often than before (`asPattern_within`). Patterns that are read as such are laid
out like everything else.
-/

set_option autoImplicit false

namespace AmdModules.Script

open Text Yields

/-! ## Expressions taken as patterns -/

/-- The parts of a node that is no landmark, under another name. -/
theorem Within.rename {kind kind' : Kind} {span : Span} {parts parts' : List Node}
    (hkind : kind.isLandmark = false) (hkind' : kind'.isLandmark = false)
    (h : Within parts' parts) : Within [.mk kind' span parts'] [.mk kind span parts] := by
  intro x
  have := h x
  simp only [occurrences_cons, occurrences_nil, occurrences_mk hkind, occurrences_mk hkind']
  omega

/-- What is not bound leaves nothing behind. -/
theorem Within.invalid (span : Span) (ns : List Node) : Within [.mk .invalid span []] ns := by
  intro x
  rw [occurrences_cons, occurrences_mk rfl]
  simp

mutual

theorem asPattern_within {target : Target} (n : Node) {m : Node}
    (h : asPattern target n = some m) : Within [m] [n] := by
  match n with
  | .mk kind span parts =>
    unfold asPattern at h
    split at h
    · cases h
      exact .refl _
    · obtain ⟨parts', hparts, hm⟩ := Option.bind_eq_some_iff.mp h
      cases hm
      exact .rename rfl rfl (elementsAsPatterns_within parts hparts)
    · obtain ⟨parts', hparts, hm⟩ := Option.bind_eq_some_iff.mp h
      cases hm
      exact .rename rfl rfl (propertiesAsPatterns_within parts hparts)
    · cases h
      exact .refl _
    · cases h
      exact .refl _
    · cases h
      exact .refl _
    · split at h
      · cases h
        exact .refl _
      · obtain ⟨parts', hparts, hm⟩ := Option.bind_eq_some_iff.mp h
        cases hm
        exact .rename rfl rfl (firstAsPattern_within parts hparts)
    · split at h
      · cases h
        exact .refl _
      · split at h
        · cases h
          exact .refl _
        · cases h
          exact .invalid span _
      · split at h
        · cases h
          exact .refl _
        · cases h
          exact .invalid span _

theorem firstAsPattern_within {target : Target} (ns : List Node) {ms : List Node}
    (h : firstAsPattern target ns = some ms) : Within ms ns := by
  match ns with
  | [] =>
    cases h
    exact .refl _
  | n :: ns =>
    obtain ⟨m, hm, hms⟩ := Option.bind_eq_some_iff.mp h
    cases hms
    exact .cons (asPattern_within n hm) (.refl _)

theorem elementsAsPatterns_within {target : Target} (ns : List Node) {ms : List Node}
    (h : elementsAsPatterns target ns = some ms) : Within ms ns := by
  match ns with
  | [] =>
    cases h
    exact .refl _
  | .mk kind span parts :: ns =>
    unfold elementsAsPatterns at h
    split at h
    · split at h
      · obtain ⟨parts', hparts, hms⟩ := Option.bind_eq_some_iff.mp h
        cases hms
        exact .cons (.rename rfl rfl (firstAsPattern_within parts hparts)) (.nil _)
      · exact .trans (elementsAsPatterns_within ns h) (.append (.nil [_]) (.refl ns))
    · obtain ⟨others, hothers, hms⟩ := Option.bind_eq_some_iff.mp h
      cases hms
      exact .cons (.refl _) (elementsAsPatterns_within ns hothers)
    · obtain ⟨m, hm, h⟩ := Option.bind_eq_some_iff.mp h
      obtain ⟨others, hothers, hms⟩ := Option.bind_eq_some_iff.mp h
      cases hms
      exact .cons (asPattern_within _ hm) (elementsAsPatterns_within ns hothers)

theorem propertiesAsPatterns_within {target : Target} (ns : List Node) {ms : List Node}
    (h : propertiesAsPatterns target ns = some ms) : Within ms ns := by
  match ns with
  | [] =>
    cases h
    exact .refl _
  | .mk kind span parts :: ns =>
    unfold propertiesAsPatterns at h
    split at h
    · obtain ⟨others, hothers, hms⟩ := Option.bind_eq_some_iff.mp h
      cases hms
      exact .cons (.refl _) (propertiesAsPatterns_within ns hothers)
    · obtain ⟨others, hothers, hms⟩ := Option.bind_eq_some_iff.mp h
      cases hms
      exact .cons (.refl _) (propertiesAsPatterns_within ns hothers)
    · obtain ⟨parts', hparts, h⟩ := Option.bind_eq_some_iff.mp h
      obtain ⟨others, hothers, hms⟩ := Option.bind_eq_some_iff.mp h
      cases hms
      exact .cons (.rename rfl rfl (valueAsPattern_within parts hparts))
        (propertiesAsPatterns_within ns hothers)
    · obtain ⟨parts', hparts, h⟩ := Option.bind_eq_some_iff.mp h
      obtain ⟨others, hothers, hms⟩ := Option.bind_eq_some_iff.mp h
      cases hms
      exact .cons (.rename rfl rfl (restAsPattern_within parts hparts))
        (propertiesAsPatterns_within ns hothers)
    · exact absurd h (by simp)

theorem restAsPattern_within {target : Target} (ns : List Node) {ms : List Node}
    (h : restAsPattern target ns = some ms) : Within ms ns := by
  match ns with
  | [] =>
    cases h
    exact .refl _
  | .mk kind span parts :: ns =>
    unfold restAsPattern at h
    split at h
    · cases h
      exact .refl _
    · cases h
      exact .cons (.invalid span _) (.refl _)
    · obtain ⟨m, hm, hms⟩ := Option.bind_eq_some_iff.mp h
      cases hms
      exact .cons (asPattern_within _ hm) (.refl _)

theorem valueAsPattern_within {target : Target} (ns : List Node) {ms : List Node}
    (h : valueAsPattern target ns = some ms) : Within ms ns := by
  match ns with
  | [] =>
    cases h
    exact .refl _
  | key :: ns =>
    obtain ⟨others, hothers, hms⟩ := Option.bind_eq_some_iff.mp h
    cases hms
    exact .cons (.refl _) (firstAsPattern_within ns hothers)

end

/-! ## Patterns that are read as such -/

namespace Parser

variable {text : List Char} {g : Grammar}

theorem separator_lays (close : String) : Lays text (separator close) :=
  fun _ => .readIf (.isMark close) (.pure (fun _ _ => trivial) trivial (.refl _))
    (expect_lays _ _)

theorem bindingElement_lays (hg : g.Lays text) : Lays text (bindingElement g) := by
  intro lo
  refine .position fun start hstart => .step (hg.binding _) fun left hleft => ?_
  refine .eatIf (eat_eats _) ?_ (.pure (fun _ h => h) hleft (.refl _))
  refine .step (within_lays (fun _ => rfl) hg.assignment) fun right _ => ?_
  exact .node rfl hstart (by grind)

theorem propertyName_lays (hg : g.Lays text) : Lays text (propertyName g) := by
  intro lo
  refine .position fun start hstart => .read .token fun t => ?_
  split
  · exact leaf_lays rfl lo
  · exact leaf_lays rfl lo
  · exact leaf_lays rfl lo
  · refine .step advance_lays fun _ _ => ?_
    refine .step (within_lays (fun _ => rfl) hg.assignment) fun inner _ => ?_
    exact .step (expect_lays _) fun _ _ => .node rfl hstart (by grind)
  · exact .refuse

theorem arrayBinding_lays (hg : g.Lays text) : Lays text (arrayBinding g) := by
  intro lo
  refine .position fun start hstart => .step (expect_lays _) fun _ _ => ?_
  refine .step (manyUntil_lays (.isMarkOrEnd _) (fun lo => ?_) _) fun parts _ => ?_
  · refine .position fun here hhere => .eatIf (eat_eats _) ?_ (.eatIf (eat_eats _) ?_ ?_)
    · exact .pure (fun _ _ => trivial) trivial (.mk rfl (.refl _))
    · refine .step (hg.binding _) fun inner _ => .bindNode [] rfl hhere (by grind) fun part _ => ?_
      exact .step (separator_lays _) fun _ _ => .pure (fun _ _ => trivial) trivial (by grind)
    · refine .step (bindingElement_lays hg) fun part _ => .step (separator_lays _) fun _ _ => ?_
      exact .pure (fun _ _ => trivial) trivial (by grind)
  · exact .step (expect_lays _) fun _ _ => .node rfl hstart (by grind)

theorem bindingProperty_lays (hg : g.Lays text) : Lays text (bindingProperty g) := by
  intro lo
  refine .position fun start hstart => .eatIf (eat_eats _) ?_ ?_
  · exact .step (hg.binding _) fun inner _ => .node rfl hstart (by grind)
  · refine .step (propertyName_lays hg) fun key _ => .eatIf (eat_eats _) ?_ ?_
    · exact .step (bindingElement_lays hg) fun value _ => .node rfl hstart (by grind)
    · split
      · refine .eatIf (eat_eats _) ?_ (.node rfl hstart (by grind))
        refine .step (within_lays (fun _ => rfl) hg.assignment) fun value _ => ?_
        exact .node rfl hstart (by grind)
      · exact .refuse

theorem objectBinding_lays (hg : g.Lays text) : Lays text (objectBinding g) := by
  intro lo
  refine .position fun start hstart => .step (expect_lays _) fun _ _ => ?_
  refine .step (manyUntil_lays (.isMarkOrEnd _) (fun lo => ?_) _) fun parts _ => ?_
  · refine .step (bindingProperty_lays hg) fun part _ => .step (separator_lays _) fun _ _ => ?_
    exact .pure (fun _ _ => trivial) trivial (by grind)
  · exact .step (expect_lays _) fun _ _ => .ite .refuse (.node rfl hstart (by grind))

theorem binding_lays (hg : g.Lays text) (lexical : Bool) : Lays text (binding g lexical) := by
  intro lo
  refine .read .token fun t => ?_
  split
  · exact bindingIdentifier_lays _ lo
  · exact arrayBinding_lays hg lo
  · exact objectBinding_lays hg lo
  · exact .refuse

end Parser

end AmdModules.Script
