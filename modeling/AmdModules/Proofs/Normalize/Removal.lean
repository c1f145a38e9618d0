import AmdModules.Normalize.Text
import AmdModules.Proofs.Normalize.Result

/-!
# What is left when strict statements go

A `use strict` statement is removed as a stretch of text. On the text this touches nothing else:
what is left are the characters outside the removed stretches, in their order, and whatever stands
between two of them is still there letter by letter (`stripped_ascii`).

The grammar is not asked. A statement may be needed where one was removed, so that the rest is
refused (`emptied_branch`), and the statements on both sides may have been kept apart by nothing but
the one that went, so that they become one (`fused_neighbours`).
-/

set_option autoImplicit false

namespace AmdModules

open Text

/-! ## Texts without some stretches -/

namespace Text

/-- The characters of a text, from byte `offset` on, that stand in none of the stretches. -/
def without (gone : List Span) : Nat → List Char → List Char
  | _, [] => []
  | offset, c :: cs =>
    if gone.any (·.contains offset) then without gone (offset + c.utf8Size) cs
    else c :: without gone (offset + c.utf8Size) cs

theorem without_append (gone : List Span) (offset : Nat) (before after : List Char) :
    without gone offset (before ++ after)
      = without gone offset before ++ without gone (offset + byteLength before) after := by
  induction before generalizing offset with
  | nil => simp [without]
  | cons c before ih =>
    have hoffset : offset + byteLength (c :: before)
        = offset + c.utf8Size + byteLength before := by
      rw [byteLength_cons]
      omega
    simp only [List.cons_append, without, ih, hoffset]
    split <;> simp

/-- A stretch that lies apart from all that goes is kept as it is. -/
theorem without_eq_self {gone : List Span} {offset : Nat} {cs : List Char}
    (h : ∀ x ∈ gone, x.Apart ⟨offset, offset + byteLength cs⟩) : without gone offset cs = cs := by
  induction cs generalizing offset with
  | nil => rfl
  | cons c cs ih =>
    have hpos := c.utf8Size_pos
    have hout : gone.any (·.contains offset) = false := by
      rw [List.any_eq_false]
      intro x hx
      have := h x hx
      simp only [Span.Apart, byteLength_cons] at this
      simp only [Span.contains, Bool.and_eq_true, decide_eq_true_eq]
      omega
    rw [without, hout, ih fun x hx => ?_]
    · rfl
    · have := h x hx
      simp only [Span.Apart, byteLength_cons] at this ⊢
      omega

end Text

namespace Edit

/-- Edits that only remove leave what stands outside their stretches. -/
theorem weave_map_delete (gone : List Span) (offset : Nat) (cs : List Char) :
    weave (gone.map .delete) offset cs = without gone offset cs := by
  have hnone (o : Nat) : insertedAt (gone.map .delete) o = [] := by
    refine insertedAt_of_text (fun e he => ?_) o
    obtain ⟨x, -, rfl⟩ := List.mem_map.mp he
    rfl
  induction cs generalizing offset with
  | nil => exact hnone offset
  | cons c cs ih =>
    have hany : (gone.map delete).any (·.span.contains offset) = gone.any (·.contains offset) := by
      rw [List.any_map]
      rfl
    rw [weave, without, hnone, ih, hany]
    split <;> simp

end Edit

namespace Normalize

open Script (Program Node State)
open Loader (Call Shape)

/-- The stretches that strict statements cover. -/
def strictSpans (root : Node) : List Span :=
  (root.preorder.filter isUseStrict).map (·.span)

/-- Where no call of `define` lacks anything, only strict statements go. -/
theorem walk_of_complete {profile : Profile} {root : Node} (hstrict : profile.useStrict = false)
    (hcomplete : ∀ call ∈ Loader.definitions root,
      (Shape.ofArguments call.arguments).isComplete = true) (name : String) (text : List Char) :
    root.preorder.flatMap (nodeDifferences profile.useStrict name text)
      = (strictSpans root).map .delete := by
  have hnone : ∀ n ∈ root.preorder,
      ((Call.definition? n).bind (completion? name text)).toList = [] := by
    intro n hn
    cases hcall : Call.definition? n with
    | none => rfl
    | some call =>
      have hmem : call ∈ Loader.definitions root := List.mem_filterMap.mpr ⟨n, hn, hcall⟩
      have hsome := isSome_completion? name text call
      rw [hcomplete call hmem] at hsome
      simpa using hsome
  rw [strictSpans]
  generalize root.preorder = nodes at hnone ⊢
  induction nodes with
  | nil => rfl
  | cons n ns ih =>
    have hrest := ih fun m hm => hnone m (List.mem_cons_of_mem _ hm)
    simp only [List.flatMap_cons, nodeDifferences, hnone n List.mem_cons_self, hstrict] at hrest ⊢
    cases huse : isUseStrict n with
    | true => simp [huse, hrest]
    | false => simp [huse, hrest]

/-- **Removing strict statements leaves the rest of the text alone.** In an ASCII text whose calls
of `define` lack nothing, the strict statements lie in the text and apart from each other, what is
left is the text without them, and every stretch that lies apart from them is still there. -/
theorem stripped_ascii {text : List Char} {program : Program} (hascii : IsAscii text)
    (hne : text ≠ []) (hparse : Script.parse MediaType.javaScript.dialect text = some program)
    (profile : Profile) (hstrict : profile.useStrict = false)
    (hdefined : Loader.definitions program.root ≠ [])
    (hcomplete : ∀ call ∈ Loader.definitions program.root,
      (Shape.ofArguments call.arguments).isComplete = true) (name : String) :
    (∀ x ∈ strictSpans program.root, x.start ≤ x.stop ∧ x.stop ≤ byteLength text)
      ∧ (strictSpans program.root).Pairwise Span.Apart
      ∧ (∀ (σ : Type) (s : σ), (Normalize.text Service.direct profile name text s).value
        = .ok (without (strictSpans program.root) 0 text))
      ∧ ∀ before inside after, text = before ++ inside ++ after →
        (∀ x ∈ strictSpans program.root,
          x.Apart ⟨byteLength before, byteLength before + byteLength inside⟩) →
        without (strictSpans program.root) 0 text
          = without (strictSpans program.root) 0 before ++ inside
            ++ without (strictSpans program.root) (byteLength before + byteLength inside)
              after := by
  obtain ⟨s, hs, hcomments, howned⟩ := Script.parse_owned rfl hparse
  have hadded : addition profile name text program = [] := if_neg hdefined
  have hwalk := walk_of_complete hstrict hcomplete name text
  have hsteady := undrifted_of_isAscii hascii hs howned profile
  have hedits := edits_eq howned hcomments hsteady name
  obtain ⟨hfits, hapart⟩ := differences_fit hs howned hsteady name
  rw [hadded, List.append_nil, hwalk] at hedits hfits hapart
  rw [List.pairwise_map] at hapart
  refine ⟨fun x hx => ?_, hapart, fun σ s' => ?_, ?_⟩
  · have hfit := hfits _ (List.mem_map_of_mem hx)
    obtain ⟨cs, hcs⟩ := hfit.stop_mem
    exact ⟨hfit.le, hcs.le_byteLength⟩
  · refine text_eq hne hparse profile name s' ?_
    rw [apply, hedits, Edit.applyAll_eq_weave hfits (List.pairwise_map.mpr hapart),
      Edit.weave_map_delete]
  · rintro before inside after rfl hoff
    rw [without_append, without_append, Nat.zero_add, byteLength_append, Nat.zero_add,
      without_eq_self hoff]

example : (Normalize.text Service.direct { } "m"
      "'use strict';define('m',[],function()\x7b'use strict';f()\x7d);'use strict';g()".toList
      ()).value
    = .ok "define('m',[],function()\x7bf()\x7d);g()".toList := by
  decide +kernel

/-- The only statement of a branch goes, and the text that is left is refused. -/
theorem emptied_branch :
    ((Script.parse MediaType.javaScript.dialect
        "if (a) 'use strict'; else b();define('m',[])".toList).map fun program =>
          (Loader.definitions program.root).all fun call =>
            (Shape.ofArguments call.arguments).isComplete) = some true
      ∧ (Normalize.text Service.direct { } "m"
          "if (a) 'use strict'; else b();define('m',[])".toList ()).value
        = .ok "if (a)  else b();define('m',[])".toList
      ∧ Script.parse MediaType.javaScript.dialect "if (a)  else b();define('m',[])".toList
        = none := by
  refine ⟨by decide +kernel, by decide +kernel, ?_⟩
  rw [← Option.isNone_iff_eq_none]
  decide +kernel

/-- Of the statements `define(..);`, `require`, `'use strict';` and `(..);` only two are left, since
the name and the parenthesis become a call. -/
theorem fused_neighbours :
    ((Script.parse MediaType.javaScript.dialect
        "define('m',[]);\nrequire\n'use strict';\n(['x']);".toList).map
          (·.root.parts.length)) = some 4
      ∧ (Normalize.text Service.direct { } "m"
          "define('m',[]);\nrequire\n'use strict';\n(['x']);".toList ()).value
        = .ok "define('m',[]);\nrequire\n\n(['x']);".toList
      ∧ ((Script.parse MediaType.javaScript.dialect
        "define('m',[]);\nrequire\n\n(['x']);".toList).map (·.root.parts.length)) = some 2 := by
  refine ⟨by decide +kernel, by decide +kernel, by decide +kernel⟩

end Normalize

end AmdModules
