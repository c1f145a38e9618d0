import AmdModules.Proofs.Reread.Retrace

/-!
# Patterns of a filled text

Patterns that are read as such are read again. The lists in them differ from the lists of arguments
in that nothing is put in behind their commas.
-/

set_option autoImplicit false

namespace AmdModules.Script.Parser

open Text Yields Mirrors
open Filling (AlikeAll)

variable {text : List Char} {f : Filling text} {g g' : Grammar}

theorem separator_rereads (close : String) : Rereads f (separator close) (separator close) :=
  .readIf (.isMark close) (.pure trivial (.nil _)) (expect_rereads _)

theorem bindingElement_rereads (hg : g.Rereads f g') :
    Rereads f (bindingElement g) (bindingElement g') := by
  refine .position fun start start' => .step (hg.binding _) fun left left' hleft => ?_
  refine .eatIf (eat_rereads _) ?_ (.pure hleft (.refl _))
  refine .step (within_rereads { } hg.assignment) fun right right' hright => ?_
  exact .node nofun (.cons hleft (.singleton hright)) (by grind)

theorem propertyName_rereads (hg : g.Rereads f g') :
    Rereads f (propertyName g) (propertyName g') := by
  refine .position fun start start' => .token fun kind span span' new _ => ?_
  dsimp only
  split
  · exact (leaf_rereads (by nofun)).frame
  · exact (leaf_rereads (by nofun)).frame
  · exact (leaf_rereads (by nofun)).frame
  · refine .step advance_rereads fun _ _ _ => ?_
    refine .step (within_rereads { } hg.assignment) fun inner inner' hinner => ?_
    exact .step (expect_rereads _) fun _ _ _ => .node nofun (.singleton hinner) (by grind)
  · exact .refuse

theorem arrayBinding_rereads (hg : g.Rereads f g') :
    Rereads f (arrayBinding g) (arrayBinding g') := by
  refine .position fun start start' => .step (expect_rereads _) fun _ _ _ => ?_
  refine .step (manyUntil_rereads (.isMarkOrEnd _) ?_ hg.limit) fun parts parts' hparts => ?_
  · refine .position fun here here' => .eatIf (eat_rereads _) ?_ (.eatIf (eat_rereads _) ?_ ?_)
    · exact .pure (.singleton (.mk (by nofun) _ _ .nil)) (.mk rfl (.refl _))
    · refine .step (hg.binding _) fun inner inner' hinner => ?_
      refine .bindNode nofun (.singleton hinner) (by grind) fun part part' hpart => ?_
      exact .step (separator_rereads _) fun _ _ _ => .pure (.singleton hpart) (by grind)
    · refine .step (bindingElement_rereads hg) fun part part' hpart => ?_
      exact .step (separator_rereads _) fun _ _ _ => .pure (.singleton hpart) (by grind)
  · exact .step (expect_rereads _) fun _ _ _ => .node nofun hparts (by grind)

theorem bindingProperty_rereads (hg : g.Rereads f g') :
    Rereads f (bindingProperty g) (bindingProperty g') := by
  refine .position fun start start' => .eatIf (eat_rereads _) ?_ ?_
  · refine .step (hg.binding _) fun inner inner' hinner => ?_
    exact .node nofun (.singleton hinner) (by grind)
  · refine .step (propertyName_rereads hg) fun key key' hkey => .eatIf (eat_rereads _) ?_ ?_
    · refine .step (bindingElement_rereads hg) fun value value' hvalue => ?_
      exact .node nofun (.cons hkey (.singleton hvalue)) (by grind)
    · rw [hkey.kind]
      split
      · refine .eatIf (eat_rereads _) ?_ (.node nofun .nil (.nil _))
        refine .step (within_rereads { } hg.assignment) fun value value' hvalue => ?_
        exact .node nofun (.singleton hvalue) (by grind)
      · exact .refuse

theorem endsInPatternRest_map {change : Node → Node} (hchange : Reshapes change) (ns : List Node) :
    endsInPatternRest (ns.map change) = endsInPatternRest ns := by
  unfold endsInPatternRest
  rw [List.getLast?_map]
  rcases ns.getLast? with _ | ⟨kind, span, parts⟩
  · rfl
  obtain ⟨parts', hmk, hparts⟩ := hchange.exists_mk kind span parts
  rw [Option.map_some, hmk]
  cases kind
  case rest =>
    rw [hparts (by decide)]
    rcases parts with _ | ⟨⟨kind', span', parts''⟩, others⟩
    · rfl
    · obtain ⟨_, hmk', -⟩ := hchange.exists_mk kind' span' parts''
      cases others <;> simp [hmk']
  all_goals rfl

/-- Whether a list of properties ends in a rest of that sort is told by kinds. -/
theorem endsInPatternRest_eq {parts parts' : List Node} (h : f.AlikeAll parts parts') :
    endsInPatternRest parts' = endsInPatternRest parts := by
  rw [← endsInPatternRest_map reshapes_plain parts', h,
    endsInPatternRest_map Filling.reshapes_mirror]

theorem objectBinding_rereads (hg : g.Rereads f g') :
    Rereads f (objectBinding g) (objectBinding g') := by
  refine .position fun start start' => .step (expect_rereads _) fun _ _ _ => ?_
  refine .step (manyUntil_rereads (.isMarkOrEnd _) ?_ hg.limit) fun parts parts' hparts => ?_
  · refine .step (bindingProperty_rereads hg) fun part part' hpart => ?_
    exact .step (separator_rereads _) fun _ _ _ => .pure (.singleton hpart) (by grind)
  · refine .step (expect_rereads _) fun _ _ _ => ?_
    rw [endsInPatternRest_eq hparts]
    exact .ite .refuse (.node nofun hparts (by grind))

theorem binding_rereads (hg : g.Rereads f g') (lexical : Bool) :
    Rereads f (binding g lexical) (binding g' lexical) := by
  refine .token fun kind span span' new _ => ?_
  dsimp only
  split
  · exact (bindingIdentifier_rereads _).frame
  · exact (arrayBinding_rereads hg).frame
  · exact (objectBinding_rereads hg).frame
  · exact .refuse

end AmdModules.Script.Parser
