import AmdModules.Normalize.Text
import AmdModules.Proofs.Normalize.Differences

/-!
# The normalized text

Normalizing an ASCII text that is accepted does not fail, and its result is the text with the
differences its tree asks for (`normalized_ascii`). A text that lacks nothing stays as it is
(`kept_of_complete`). What is made of any other text need not be accepted again: edits are made on
the text, and the grammar around them is not asked (`removal_refused`).
-/

set_option autoImplicit false

namespace AmdModules.Normalize

open Text
open Script (Program State tokenFrom?)
open Loader (Call Shape isString_of_hasId)

/-! ## ASCII texts -/

/-- The tokens behind which a call of `define` is completed: its own parenthesis, and the comma that
ends its id. -/
structure Delimited (text : List Char) (call : Call) : Prop where
  opening : ∃ t, tokenFrom? text call.callee.stop = some t ∧ t.kind = .mark "("
    ∧ t.span.stop ≤ call.span.stop
  comma : ∀ id next others, call.arguments = id :: next :: others → Loader.isString id = true →
    ∃ t, tokenFrom? text id.span.stop = some t ∧ t.kind = .mark ","
      ∧ t.span.stop ≤ next.span.start

theorem Delimited.of_seated {text : List Char} {s : State} {call : Call}
    (h : Script.Seated text s call) : Delimited text call := by
  refine ⟨?_, fun id next others harguments hid => ?_⟩
  · obtain ⟨stop, hpassed, hle⟩ := h.opening
    obtain ⟨t, ht, hkind, rfl⟩ := hpassed.tokenFrom?_eq
    exact ⟨t, ht, hkind, hle⟩
  · obtain ⟨stop, hpassed, hle, -⟩ := h.comma id next others harguments hid
    obtain ⟨t, ht, hkind, rfl⟩ := hpassed.tokenFrom?_eq
    exact ⟨t, ht, hkind, hle⟩

/-- A text that is accepted is edited without an error by the edits that were recorded. -/
theorem textAt_eq {σ : Type} {text : List Char} {program : Program} (hne : text ≠ [])
    (hparse : Script.parse MediaType.javaScript.dialect text = some program) (profile : Profile)
    (name : String) (specifier : Url) (s : σ) {result : List Char}
    (happly : apply profile name text program = .ok result) :
    (textAt Service.direct profile name specifier text s).value = .ok result := by
  have hempty : text.isEmpty = false := by simpa using hne
  have hsource : ParseRequest.parse ⟨specifier, text, .javaScript⟩
      = .ok ⟨text, .javaScript, program⟩ := by
    simp only [ParseRequest.parse, hparse]
  simp only [textAt, hempty, Service.direct, hsource]
  simp [Bind.bind, Pure.pure, happly]

theorem text_eq {σ : Type} {text : List Char} {program : Program} (hne : text ≠ [])
    (hparse : Script.parse MediaType.javaScript.dialect text = some program) (profile : Profile)
    (name : String) (s : σ) {result : List Char}
    (happly : apply profile name text program = .ok result) :
    (Normalize.text Service.direct profile name text s).value = .ok result := by
  have hempty : text.isEmpty = false := by simpa using hne
  unfold Normalize.text
  cases ModuleId.resolve ModuleId.defaultBase name with
  | ok specifier =>
    simpa [hempty] using textAt_eq hne hparse profile name specifier s happly
  | error e =>
    simpa [hempty, Bind.bind] using textAt_eq hne hparse profile name ModuleId.fallback _ happly

/-- Where nothing drifts the recorded edits are the differences, they fit the text, and what they
make of it is the woven text. -/
theorem apply_eq {text : List Char} {program : Program} {s : State} (hs : s.On text)
    (hcomments : program.comments = s.reading.comments.reverse)
    (howned : Script.Owned text 0 s [program.root]) {profile : Profile}
    (hsteady : Undrifted profile text program) (name : String) :
    (edits profile name text program).Perm (differences profile name text program)
      ∧ (∀ e ∈ edits profile name text program, e.Fits text)
      ∧ (edits profile name text program).Pairwise (·.span.Apart ·.span)
      ∧ apply profile name text program
        = .ok (Edit.weave (differences profile name text program) 0 text) := by
  have hedits := edits_eq howned hcomments hsteady name
  obtain ⟨hfits, hapart⟩ := differences_fit hs howned hsteady name
  rw [← hedits] at hfits hapart
  have hperm : (edits profile name text program).Perm (differences profile name text program) := by
    rw [hedits]
    exact (walk_perm profile name text program).append_right _
  -- the walk has its own order; the woven text depends only on what is inserted at each place
  have hweave : Edit.weave (edits profile name text program) 0 text
      = Edit.weave (differences profile name text program) 0 text := by
    refine Edit.weave_congr (fun o => ?_) (Edit.any_contains_of_perm hperm) 0 text
    rw [hedits, differences, Edit.insertedAt_append, Edit.insertedAt_append _ (addition _ _ _ _),
      insertedAt_walk]
  refine ⟨hperm, hfits, hapart, ?_⟩
  rw [apply, Edit.applyAll_eq_weave hfits hapart, hweave]

/-- **What normalizing makes of an ASCII text.** The recorded edits are the differences the tree
asks for, they lie in the text and no two overlap, each call of `define` is completed behind its own
tokens and only if it lacks something, and the result is the text with these differences and all
else as it was. -/
theorem normalized_ascii {text : List Char} {program : Program} (hascii : IsAscii text)
    (hne : text ≠ []) (hparse : Script.parse MediaType.javaScript.dialect text = some program)
    (profile : Profile) (name : String) :
    (edits profile name text program).Perm (differences profile name text program)
      ∧ (∀ e ∈ edits profile name text program,
        e.span.start ≤ e.span.stop ∧ e.span.stop ≤ byteLength text)
      ∧ (edits profile name text program).Pairwise (·.span.Apart ·.span)
      ∧ (∀ call ∈ Loader.definitions program.root, Delimited text call
        ∧ (completion? name text call).isSome = !(Shape.ofArguments call.arguments).isComplete)
      ∧ ∀ (σ : Type) (s : σ),
        (Normalize.text Service.direct profile name text s).value
            = .ok (Edit.weave (differences profile name text program) 0 text)
          ∧ ∀ specifier, (textAt Service.direct profile name specifier text s).value
            = .ok (Edit.weave (differences profile name text program) 0 text) := by
  obtain ⟨s, hs, hcomments, howned⟩ := Script.parse_owned rfl hparse
  have hsteady := undrifted_of_isAscii hascii hs howned profile
  obtain ⟨hperm, hfits, hapart, happly⟩ := apply_eq hs hcomments howned hsteady name
  refine ⟨hperm, fun e he => ⟨(hfits e he).le, ?_⟩, hapart, fun call hcall => ⟨?_, ?_⟩,
    fun σ s => ⟨text_eq hne hparse profile name s happly,
      fun specifier => textAt_eq hne hparse profile name specifier s happly⟩⟩
  · obtain ⟨cs, hcs⟩ := (hfits e he).stop_mem
    exact hcs.le_byteLength
  · obtain ⟨n, hn, hcall⟩ := List.mem_filterMap.mp hcall
    have hkind : n.kind.isLandmark = true := by rw [(call_of_definition? hcall).1]; rfl
    exact .of_seated ((howned.settled n (Script.mem_landmarks hn hkind)).seated call hcall)
  · exact isSome_completion? name text call

/-- A strict script with two calls, one of which has its marks among comments. -/
def twoDefinitions : List Char :=
  "'use strict';define/*(*/('a'/*,*/,f);define(g)".toList

theorem twoDefinitions_accepted :
    (Script.parse MediaType.javaScript.dialect twoDefinitions).isSome = true := by
  decide +kernel

theorem normalized_twoDefinitions :
    ∃ program, Script.parse MediaType.javaScript.dialect twoDefinitions = some program
      ∧ (Normalize.text Service.direct { } "m" twoDefinitions ()).value
        = .ok (Edit.weave (differences { } "m" twoDefinitions program) 0 twoDefinitions)
      ∧ Edit.weave (differences { } "m" twoDefinitions program) 0 twoDefinitions
        = "define/*(*/('a'/*,*/,[],f);define('m',[],g)".toList := by
  have hparse := (Option.some_get twoDefinitions_accepted).symm
  refine ⟨_, hparse, ?_, by decide +kernel⟩
  have hascii : IsAscii twoDefinitions := by decide +kernel
  have hne : twoDefinitions ≠ [] := by decide +kernel
  obtain ⟨-, -, -, -, hresult⟩ := normalized_ascii hascii hne hparse { } "m"
  exact (hresult Unit ()).1

/-! ## Texts that lack nothing -/

/-- Nothing is recorded for a text without anything to remove whose calls of `define` are
complete. -/
theorem edits_eq_nil {profile : Profile} {text : List Char} {program : Program}
    (hdefined : Loader.definitions program.root ≠ [])
    (hcomplete : ∀ call ∈ Loader.definitions program.root,
      (Shape.ofArguments call.arguments).isComplete = true)
    (hstrict : profile.useStrict = true ∨ ∀ n ∈ program.root.preorder, isUseStrict n = false)
    (name : String) : edits profile name text program = [] := by
  have hnode : ∀ n ∈ program.root.preorder, ∀ comments,
      nodeEdits profile.useStrict name text comments n = [] := by
    intro n hn comments
    unfold nodeEdits
    by_cases huse : isUseStrict n = true
    · rcases hstrict with hkeep | hnone
      · simp [huse, hkeep]
      · rw [hnone n hn] at huse
        cases huse
    · rw [if_neg huse]
      cases hcall : Call.definition? n with
      | none => rfl
      | some call =>
        have hmem : call ∈ Loader.definitions program.root :=
          List.mem_filterMap.mpr ⟨n, hn, hcall⟩
        simp [callEdits, Loader.repair?, hcomplete call hmem]
  have htree : treeEdits profile.useStrict name text program = [] := by
    rw [treeEdits, List.flatMap_eq_nil_iff]
    intro n hn
    exact hnode n hn _
  simp [edits, htree, hdefined]

/-- **A text that lacks nothing stays as it is**: it is accepted as before, and it has a call of
`define` that starts with a string. -/
theorem kept_of_complete {σ : Type} {text : List Char} {program : Program} (hne : text ≠ [])
    (hparse : Script.parse MediaType.javaScript.dialect text = some program) (profile : Profile)
    (hdefined : Loader.definitions program.root ≠ [])
    (hcomplete : ∀ call ∈ Loader.definitions program.root,
      (Shape.ofArguments call.arguments).isComplete = true)
    (hstrict : profile.useStrict = true ∨ ∀ n ∈ program.root.preorder, isUseStrict n = false)
    (name : String) (s : σ) :
    (Normalize.text Service.direct profile name text s).value = .ok text
      ∧ ∃ call ∈ Loader.definitions program.root, ∃ id others,
        call.arguments = id :: others ∧ Loader.isString id = true := by
  have happly : apply profile name text program = .ok text := by
    rw [apply, edits_eq_nil hdefined hcomplete hstrict, Edit.applyAll_nil]
  refine ⟨text_eq hne hparse profile name s happly, ?_⟩
  obtain ⟨call, hcall⟩ := List.exists_mem_of_ne_nil _ hdefined
  have hshape := hcomplete call hcall
  refine ⟨call, hcall, ?_⟩
  cases harguments : call.arguments with
  | nil =>
    rw [harguments] at hshape
    cases hshape
  | cons id others =>
    rw [harguments] at hshape
    exact ⟨id, others, rfl, isString_of_hasId (Bool.and_eq_true_iff.mp hshape |>.1)⟩

example : (Normalize.text Service.direct { } "m" "define('a', ['b'], f);".toList ()).value
    = .ok "define('a', ['b'], f);".toList := by
  decide +kernel

/-- A removed statement leaves nothing in its place, also where the grammar needs a statement: the
normalized text is refused. -/
theorem removal_refused :
    (Normalize.text Service.direct { } "m" "if (a) 'use strict'; else b();".toList ()).value
        = .ok "if (a)  else b();\ndefine(\"m\", function()\x7b\x7d);\n".toList
      ∧ Script.parse MediaType.javaScript.dialect
        "if (a)  else b();\ndefine(\"m\", function()\x7b\x7d);\n".toList = none := by
  decide +kernel

end AmdModules.Normalize
