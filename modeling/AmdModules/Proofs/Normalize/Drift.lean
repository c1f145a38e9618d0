import AmdModules.Proofs.Normalize.Result

/-!
# Texts with wide characters

Every offset from the tree goes through a line and a column, and on a line with wide characters it
comes back too small. Edits are then recorded at places the tree does not mean, inside a character
or across each other, and normalizing fails (`wideId_fails`).

Two things are safe. The detour keeps the order of offsets, so no edit ever runs backwards. And the
drift of one line does not reach the next: where the few stretches that the edits rest on are free
of wide characters, and so is what stands in front of them on their lines, normalizing does not
fail, whatever stands in the rest of the text (`edits_safe`). A call whose end has drifted may be
left as it is, but nothing else is recorded than what the tree asks for.
-/

set_option autoImplicit false

namespace AmdModules.Normalize

open Text
open Script (Program State Node)
open Loader (Call Shape)

/-! ## The order of an edit's ends -/

/-- What completes a call is put at one place. -/
theorem start_eq_stop_of_mem_callEdits {name : String} {text : List Char} {comments : List Span}
    {call : Call} {e : Edit} (h : e ∈ callEdits name text comments call) :
    e.span.start = e.span.stop := by
  have hinserted {place : Nat} {inserted : List Char} (h : e ∈ [Edit.insertAt place inserted]) :
      e.span.start = e.span.stop := by
    obtain rfl := List.mem_singleton.mp h
    rfl
  unfold callEdits at h
  split at h
  · cases h
  · split at h
    · cases h
    · split at h
      · exact hinserted h
      · unfold dependenciesEdit at h
        split at h
        · cases h
        · exact hinserted h
        · dsimp only at h
          split at h
          · exact hinserted h
          · exact hinserted h

variable {text : List Char} {program : Program} {s : State}

/-- No edit runs backwards, however far its ends have drifted. -/
theorem start_le_stop_of_mem_edits (howned : Script.Owned text 0 s [program.root])
    {profile : Profile} {name : String} {e : Edit} (h : e ∈ edits profile name text program) :
    e.span.start ≤ e.span.stop := by
  rcases List.mem_append.mp h with h | h
  · obtain ⟨n, hn, h⟩ := List.mem_flatMap.mp h
    unfold nodeEdits at h
    split at h
    · rename_i hstrict
      split at h
      · cases h
      · obtain rfl := List.mem_singleton.mp h
        exact throughPosition_mono text (isUseStrict_bounds howned hn hstrict).1
    · split at h
      · exact Nat.le_of_eq (start_eq_stop_of_mem_callEdits h)
      · cases h
  · split at h
    · obtain rfl := List.mem_singleton.mp h
      exact Nat.le_refl _
    · cases h

/-! ## Edits that rest on clear stretches -/

/-- A call whose end has drifted into a character is left as it is. -/
theorem callEdits_eq_nil {name : String} {comments : List Span} {call : Call}
    (hlimit : ¬∃ cs, From text (throughPosition text call.span.stop) cs) :
    callEdits name text comments call = [] := by
  unfold callEdits
  rw [findOutside_eq_none hlimit]
  split
  · rfl
  · rfl

/-- Where nothing drifts no more is recorded for a node than what becomes of it. -/
theorem nodeEdits_sublist (howned : Script.Owned text 0 s [program.root]) {useStrict : Bool}
    (name : String) {n : Node} (hn : n ∈ program.root.preorder)
    (hsteady : ∀ x ∈ stretches useStrict text n, x.Steady text) :
    (nodeEdits useStrict name text (s.reading.comments.reverse.map (·.throughPosition text))
      n).Sublist (nodeDifferences useStrict name text n) := by
  by_cases hlimit : ∀ call, Call.definition? n = some call →
      ∃ cs, From text (throughPosition text call.span.stop) cs
  · rw [nodeEdits_eq howned useStrict name hn hsteady fun call hcall _ => hlimit call hcall]
  · obtain ⟨call, hcall, hlimit⟩ : ∃ call, Call.definition? n = some call
        ∧ ¬∃ cs, From text (throughPosition text call.span.stop) cs := by
      simpa only [not_forall, exists_prop] using hlimit
    -- the search for the mark of the call does not even start, so nothing is recorded
    have hstrict : ¬isUseStrict n = true := fun hstrict => by
      rw [definition?_of_isUseStrict hstrict] at hcall
      cases hcall
    have hnone : nodeEdits useStrict name text
        (s.reading.comments.reverse.map (·.throughPosition text)) n = [] := by
      simp only [nodeEdits, hstrict, hcall, Bool.false_eq_true, ↓reduceIte]
      exact callEdits_eq_nil hlimit
    rw [hnone]
    exact List.nil_sublist _

/-- What is recorded in the order of a walk is part of what the tree asks for. -/
theorem edits_sublist (howned : Script.Owned text 0 s [program.root])
    (hcomments : program.comments = s.reading.comments.reverse) {profile : Profile}
    (name : String)
    (hsteady : ∀ n ∈ program.root.preorder, ∀ x ∈ stretches profile.useStrict text n,
      x.Steady text) :
    (edits profile name text program).Sublist
      (program.root.preorder.flatMap (nodeDifferences profile.useStrict name text)
        ++ addition profile name text program) := by
  unfold edits treeEdits addition
  rw [hcomments]
  refine List.Sublist.append ?_ (by simp)
  exact List.Sublist.flatMap_right _ fun n hn => nodeEdits_sublist howned name hn (hsteady n hn)

/-- **Normalizing is safe where the edits rest on clear stretches.** No recorded edit of an
accepted text runs backwards. If no wide character stands in a stretch the edits rest on, or in
front of it on its line, then the edits are among the differences the tree asks for, each lies
between two places of the text, no two overlap, and normalizing gives the text with these edits. -/
theorem edits_safe (hparse : Script.parse MediaType.javaScript.dialect text = some program)
    (profile : Profile) (name : String) :
    (∀ e ∈ edits profile name text program, e.span.start ≤ e.span.stop)
      ∧ ((∀ n ∈ program.root.preorder, ∀ x ∈ stretches profile.useStrict text n,
          x.clear text = true) →
        (edits profile name text program).Subperm (differences profile name text program)
          ∧ (∀ e ∈ edits profile name text program, e.Fits text)
          ∧ (edits profile name text program).Pairwise (·.span.Apart ·.span)
          ∧ ∀ (σ : Type) (s : σ),
            (Normalize.text Service.direct profile name text s).value
                = .ok (if text = [] then [] else
                  Edit.weave (edits profile name text program) 0 text)
              ∧ ∀ specifier, (textAt Service.direct profile name specifier text s).value
                = .ok (if text = [] then [] else
                  Edit.weave (edits profile name text program) 0 text)) := by
  obtain ⟨s, hs, hcomments, howned⟩ := Script.parse_owned rfl hparse
  refine ⟨fun e he => start_le_stop_of_mem_edits howned he, fun hclear => ?_⟩
  have hsteady : ∀ n ∈ program.root.preorder, ∀ x ∈ stretches profile.useStrict text n,
      x.Steady text := fun n hn x hx => steady_of_clear (hclear n hn x hx)
  have hsublist := edits_sublist howned hcomments name hsteady
  have hfits : ∀ e ∈ edits profile name text program, e.Fits text := by
    intro e he
    rcases List.mem_append.mp (hsublist.subset he) with he | he
    · obtain ⟨n, hn, he⟩ := List.mem_flatMap.mp he
      exact fits_of_mem_nodeDifferences howned hn (hsteady n hn) he
    · exact fits_of_mem_addition he
  -- what is asked for lies apart, and so does any part of it
  have hapart := (recorded_apart hs howned profile name).sublist hsublist
  have hperm := (walk_perm profile name text program).append_right
    (addition profile name text program)
  refine ⟨hsublist.subperm.trans hperm.subperm, hfits, hapart, fun σ s => ?_⟩
  by_cases hne : text = []
  · subst hne
    exact ⟨rfl, fun _ => rfl⟩
  · have happly : apply profile name text program
        = .ok (Edit.weave (edits profile name text program) 0 text) :=
      Edit.applyAll_eq_weave hfits hapart
    rw [if_neg hne]
    exact ⟨text_eq hne hparse profile name s happly,
      fun specifier => textAt_eq hne hparse profile name specifier s happly⟩

/-- A script with wide characters, none of them in front of what is edited. -/
def wideElsewhere : List Char :=
  "'use strict'; // é (\nvar s = 'é(';\ndefine/*(*/('a'/*,*/,f);define(g); // é".toList

theorem wideElsewhere_accepted :
    (Script.parse MediaType.javaScript.dialect wideElsewhere).isSome = true := by
  decide +kernel

theorem edits_safe_wideElsewhere :
    ¬IsAscii wideElsewhere
      ∧ (Normalize.text Service.direct { } "m" wideElsewhere ()).value = .ok
        " // é (\nvar s = 'é(';\ndefine/*(*/('a'/*,*/,[],f);define('m',[],g); // é".toList := by
  have hparse := (Option.some_get wideElsewhere_accepted).symm
  refine ⟨by decide +kernel, ?_⟩
  have hclear : ∀ n ∈ (Option.get _ wideElsewhere_accepted).root.preorder,
      ∀ x ∈ stretches false wideElsewhere n, x.clear wideElsewhere = true := by decide +kernel
  obtain ⟨-, -, -, hresult⟩ := (edits_safe hparse { } "m").2 hclear
  rw [(hresult Unit ()).1]
  decide +kernel

/-- An id of wide characters: the place behind it drifts into its last one. -/
theorem wideId_fails :
    (Script.parse MediaType.javaScript.dialect "define('éé');".toList).isSome = true
      ∧ (Normalize.text Service.direct { } "m" "define('éé');".toList ()).value
        = .error (.edit .notAPlace) := by
  decide +kernel

end AmdModules.Normalize
