import AmdModules.Proofs.Normalize.Result
import AmdModules.Proofs.Reread.Completed

/-!
# Normalizing fills a text

Where nothing is removed, normalizing a text with calls of `define` only puts something into those
that lack something. So the result is a filled text (`Plan.For.weave`), and what is put in is
planned: the plan of `repairs` gives every call the insertion that `completion?` says. A filled text
is accepted again and lacks nothing, so it is not changed again (`kept_filled`).
-/

set_option autoImplicit false

namespace AmdModules

open Text
open Script (Complete Completes Filling Insertion Leading Node Plan Program Seated State Written
  behindToken callPlaces emptyArray)
open Loader (Call Shape)

/-! ## Insertions as edits -/

namespace Script

/-- The edit that puts something in. -/
def Insertion.edit (a : Insertion) : Edit :=
  .insertAt a.place a.text

/-- A text with insertions is a filled text. -/
theorem Filling.weave_eq_full {text : List Char} {f : Filling text} {es : List Edit}
    (hes : ∀ e ∈ es, ∃ a : Insertion, e = a.edit) (hput : ∀ x, Edit.insertedAt es x = f.put x)
    {o : Nat} {cs : List Char} (h : From text o cs) : Edit.weave es o cs = f.full cs := by
  have hkept (x : Nat) : es.any (·.span.contains x) = false := by
    rw [List.any_eq_false]
    intro e he
    obtain ⟨a, rfl⟩ := hes e he
    have hempty : ¬(decide (a.place ≤ x) && decide (x < a.place)) = true := by
      simp only [Bool.and_eq_true, decide_eq_true_eq]
      omega
    exact hempty
  induction cs generalizing o with
  | nil => rw [Edit.weave, hput, full, gap_eq h, fill, List.append_nil]
  | cons c cs ih =>
    rw [Edit.weave, hput, hkept, ih h.tail, ← gap_eq h, full.eq_1 _ (c :: cs), fill_eq_cons]
    simp

namespace Plan

variable {text : List Char} {p : Plan text}

/-- What a plan gives to some calls. -/
def edits (p : Plan text) (calls : List Call) : List Edit :=
  calls.filterMap fun call => (p.added? call).map Insertion.edit

/-- What is put in at a place is what the first call gets that gets something there. -/
theorem insertedAt_edits {calls : List Call} (x : Nat)
    (hapart : calls.Pairwise fun call call' => ∀ a ∈ p.added? call, ∀ a' ∈ p.added? call',
      a.place ≠ a'.place) :
    Edit.insertedAt (p.edits calls) x
      = (((calls.find? fun call => (p.added? call).any (·.place == x)).bind p.added?).map
        (·.text)).getD [] := by
  induction calls with
  | nil => rfl
  | cons call calls ih =>
    obtain ⟨hhead, htail⟩ := List.pairwise_cons.mp hapart
    have hothers := ih htail
    cases ha : p.added? call with
    | none => simpa [edits, ha] using hothers
    | some a =>
      have hcons : p.edits (call :: calls) = a.edit :: p.edits calls := by simp [edits, ha]
      rw [hcons]
      by_cases hplace : a.place = x
      · have hnone : Edit.insertedAt (p.edits calls) x = [] := by
          rw [hothers, List.find?_eq_none.mpr]
          · rfl
          · intro call' hcall' hsome
            obtain ⟨a', ha', hplace'⟩ := (Option.any_eq_true _ _).mp hsome
            exact hhead call' hcall' a ha a' ha' (hplace.trans (beq_iff_eq.mp hplace').symm)
        rw [← List.singleton_append, Edit.insertedAt_append, hnone]
        simp [Edit.insertedAt, Insertion.edit, Edit.insertAt, ha, hplace]
      · have hskip : Edit.insertedAt (a.edit :: p.edits calls) x
            = Edit.insertedAt (p.edits calls) x := by
          simp [Edit.insertedAt, Insertion.edit, Edit.insertAt, hplace]
        rw [hskip, hothers]
        simp [ha, hplace]

/-- Nothing is put in front of a text. -/
theorem put_zero : p.filling.put 0 = [] := by
  by_contra hne
  obtain ⟨call, howner, hcall, -⟩ := exists_owner hne
  obtain ⟨a, hcompletes, hplace, -⟩ := put_of_owner? howner
  obtain ⟨s, hseated⟩ := p.seated call hcall
  obtain ⟨o, c, cs, -, -, hbehind⟩ := hcompletes.behindStop hseated
  have hpos := c.utf8Size_pos
  omega

/-- **The edits that a plan asks for make the filled text.** -/
theorem For.weave {root : Node} (hp : p.For root) :
    Edit.weave (p.edits p.calls) 0 text = p.filling.fill text := by
  rw [Filling.weave_eq_full (fun e he => ?_) (fun x => ?_) (.start text), Filling.full_eq_fill]
  · rw [Filling.gap_eq (.start text), put_zero]
  · obtain ⟨call, -, he⟩ := List.mem_filterMap.mp he
    obtain ⟨a, -, rfl⟩ := Option.map_eq_some_iff.mp he
    exact ⟨a, rfl⟩
  · refine insertedAt_edits x <| hp.disjoint.imp_of_mem
      fun hcall hcall' hdisjoint a ha a' ha' heq => ?_
    have hmem := (p.completes _ hcall a ha).mem_callPlaces
    have hmem' := (p.completes _ hcall' a' ha').mem_callPlaces
    exact hdisjoint hmem (heq ▸ hmem')

end Plan

end Script

namespace Normalize

/-! ## The plan of repairs -/

/-- A string without a place. -/
def stringNode (value : String) : Node :=
  .mk (.string value) ⟨0, 0⟩ []

variable {name : String} {text : List Char} {call : Call}

/-- **A completed text is kept**: it is accepted, its calls lack nothing, and there is still nothing
to remove. -/
theorem kept_filled {σ : Type} {text : List Char} {p : Plan text} {program : Program}
    (hp : p.For program.root)
    (hparse : Script.parse { MediaType.javaScript.dialect with forgiving := false } text
      = some program)
    (hsome : ∃ call ∈ p.calls, (Shape.ofArguments call.arguments).isComplete = false)
    (profile : Profile)
    (hstrict : profile.useStrict = true ∨ ∀ n ∈ program.root.preorder, isUseStrict n = false)
    (name : String) (s : σ) :
    (Normalize.text Service.direct profile name (p.filling.fill text) s).value
      = .ok (p.filling.fill text) := by
  obtain ⟨program', hparse', halike⟩ := hp.parse rfl hparse hsome
  obtain ⟨hcomplete, hdefined, hplain⟩ := hp.of_alike halike
  obtain ⟨call, hcall, -⟩ := hsome
  have hne : p.filling.fill text ≠ [] := by
    intro hnil
    have hlength := p.filling.length_le_fill text
    rw [hnil, List.length_nil] at hlength
    obtain rfl := List.length_eq_zero_iff.mp (Nat.le_zero.mp hlength)
    obtain ⟨s, hseated⟩ := p.seated call hcall
    obtain ⟨stop, hpassed, -⟩ := hseated.opening
    obtain ⟨o, c, cs, ⟨before, htext, -⟩, -⟩ := hpassed.behindStop rfl rfl
    simp at htext
  have hdefined' := hdefined (List.ne_nil_of_mem (hp.calls ▸ hcall))
  exact (kept_of_complete hne hparse' profile hdefined' hcomplete (hstrict.imp_right hplain) name
    s).1

end Normalize

end AmdModules
