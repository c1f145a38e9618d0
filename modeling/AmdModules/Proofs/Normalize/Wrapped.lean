import AmdModules.Proofs.Normalize.Filled

/-!
# Appended wrappers

A script without a call of `define` gets one appended. With the name of the module and the ids of
its shim left out, what is appended depends on the shim's global and `init` alone (`unnamed`). If
that is read as one more call, so is what is appended for any name and any ids: these are read back
as the first two arguments (`Appendable.kept`).
-/

set_option autoImplicit false

namespace AmdModules

open Text
open Script (Completes Insertion Leading Node Plan Program Written behindToken)
open Loader (Call Shape)

/-- What is appended to a script, without the name of its module and the ids of its shim. -/
def Shim.unnamed (shim : Option Shim) : List Char :=
  "\ndefine(".toList ++ (Shim.factory shim).tail

/-- What is put in behind its parenthesis: the name and the ids, each with a comma behind it. -/
def Shim.named (name : String) (shim : Option Shim) : List Char :=
  Shim.literal name ++ Shim.depsText (Shim.needed shim) ++ ",".toList

/-- With the name and the ids put in it is what is appended. -/
theorem Shim.define_eq_named (name : String) (shim : Option Shim) :
    Shim.define name shim
      = "\ndefine(".toList ++ (Shim.named name shim ++ (Shim.factory shim).tail) := by
  obtain ⟨c, rest, hfactory, -⟩ := Shim.opens_factory shim
  have hcomma : Shim.factory shim = ",".toList ++ (Shim.factory shim).tail := by
    rw [hfactory]
    rfl
  conv_lhs => rw [Shim.define_eq, hcomma]
  simp only [Shim.named, List.append_assoc]

namespace Normalize

variable {text : List Char} {shim : Option Shim} {name : String}

/-- The parser reads the same tree whether or not it forgives what is missing or stray. -/
structure Sound (text : List Char) (program : Program) : Prop where
  accepted : Script.parse MediaType.javaScript.dialect text = some program
  unforgiven : Script.parse { MediaType.javaScript.dialect with forgiving := false } text
    = some program

/-- Nothing is removed from a text. -/
def Unstripped (profile : Profile) (program : Program) : Prop :=
  profile.useStrict = true ∨ ∀ n ∈ program.root.preorder, isUseStrict n = false

/-- What is appended to a text is read as a call of `define`, the only one, already without a name
and without ids. -/
structure Appendable (profile : Profile) (text : List Char) (shim : Option Shim)
    (program : Program) (call : Call) : Prop where
  sound : Sound (text ++ Shim.unnamed shim) program
  calls : Loader.definitions program.root = [call]
  place : call.callee.stop = byteLength text + byteLength "\ndefine".toList
  anonymous : (Shape.ofArguments call.arguments).hasId = false
  unstripped : Unstripped profile program

/-- An array of ids without places. -/
def arrayNode (ids : List String) : Node :=
  .mk .array ⟨0, 0⟩ (ids.map stringNode)

theorem leading_named (h : Shim.needed shim ≠ []) :
    Leading (Shim.named name shim) [stringNode name, arrayNode (Shim.needed shim)] := by
  have hname := Script.lexeme_of_spells (Shim.spells_literal name)
  have hneeds := Shim.needs_depsText (Shim.needed shim)
  rw [Shim.named]
  generalize Shim.needed shim = ids at h hneeds ⊢
  generalize Shim.depsText ids = between at hneeds ⊢
  cases hneeds with
  | nothing => exact absurd rfl h
  | @array inside _ hinside =>
    have hleading := Leading.cons (.inl rfl) (.string hname)
      (.cons (.inr rfl) (.array hinside) .nil)
    have htext : Shim.literal name ++ (", [".toList ++ (inside ++ "]".toList)) ++ ",".toList
        = [] ++ (Shim.literal name ++ ',' :: ([' '] ++ ('[' :: (inside ++ [']']) ++ [',']))) := by
      simp
    rw [htext]
    exact hleading

/-- The name and the ids of what is appended to a text. -/
def wrapping (name : String) (shim : Option Shim) (text : List Char) (call : Call) : Insertion where
  place := behindToken (text ++ Shim.unnamed shim) call.callee.stop
  text := Shim.named name shim
  nodes := [stringNode name, arrayNode (Shim.needed shim)]

namespace Appendable

variable {profile : Profile} {program : Program} {call : Call}

theorem place_wrapping (h : Appendable profile text shim program call) :
    (wrapping name shim text call).place = byteLength (text ++ "\ndefine(".toList) := by
  have hsplit : "\ndefine(".toList = "\ndefine".toList ++ ['('] := rfl
  have hunnamed : Shim.unnamed shim
      = "\ndefine".toList ++ (['('] ++ (Shim.factory shim).tail) :=
    (congrArg (· ++ (Shim.factory shim).tail) hsplit).trans (List.append_assoc _ _ _)
  have hfrom := ((From.start (text ++ ("\ndefine".toList
    ++ (['('] ++ (Shim.factory shim).tail)))).append).append
  rw [Nat.zero_add] at hfrom
  rw [wrapping, h.place, hunnamed, Script.lexeme_parenthesis.behindToken_eq hfrom, hsplit]
  simp only [byteLength_append, Nat.add_assoc]

theorem seated (h : Appendable profile text shim program call) :
    ∃ s, Script.Seated (text ++ Shim.unnamed shim) s call := by
  obtain ⟨s, -, -, howned⟩ := Script.parse_owned rfl h.sound.accepted
  have hcall : call ∈ Loader.definitions program.root := h.calls ▸ List.mem_singleton_self call
  obtain ⟨n, hn, hdefinition⟩ := List.mem_filterMap.mp hcall
  exact ⟨s, (settled_of_definition? howned hn hdefinition).1⟩

theorem completes (h : Appendable profile text shim program call)
    (hneeded : Shim.needed shim ≠ []) :
    Completes (text ++ Shim.unnamed shim) call (wrapping name shim text call) :=
  .leads (leading_named hneeded) (Nat.le_refl _) h.anonymous fun arguments _ =>
    Loader.isComplete_iff.mpr ⟨_, _, arguments, rfl, rfl, rfl⟩

/-- The appended call gets the name and the ids. -/
def plan (h : Appendable profile text shim program call) (hneeded : Shim.needed shim ≠ [])
    (name : String) : Plan (text ++ Shim.unnamed shim) where
  calls := [call]
  added? _ := some (wrapping name shim text call)
  completes call' hcall' a ha := by
    obtain rfl := List.mem_singleton.mp hcall'
    obtain rfl := Option.some.inj ha
    exact h.completes hneeded
  seated call' hcall' := by
    obtain rfl := List.mem_singleton.mp hcall'
    exact h.seated

theorem incomplete (h : Appendable profile text shim program call) :
    (Shape.ofArguments call.arguments).isComplete = false := by
  rw [Shape.isComplete, h.anonymous, Bool.false_and]

theorem plan_for (h : Appendable profile text shim program call)
    (hneeded : Shim.needed shim ≠ []) : (h.plan hneeded name).For program.root := by
  refine ⟨h.calls.symm, fun call' hcall' => ?_, List.pairwise_singleton _ _⟩
  obtain rfl := List.mem_singleton.mp hcall'
  rw [h.incomplete]
  rfl

/-- What is made of the unnamed call is what is appended. -/
theorem fill_plan (h : Appendable profile text shim program call)
    (hneeded : Shim.needed shim ≠ []) :
    (h.plan hneeded name).filling.fill (text ++ Shim.unnamed shim)
      = text ++ Shim.define name shim := by
  have hedits : (h.plan hneeded name).edits (h.plan hneeded name).calls
      = [.insertAt (byteLength (text ++ "\ndefine(".toList)) (Shim.named name shim)] := by
    rw [← h.place_wrapping]
    rfl
  have hunnamed : text ++ Shim.unnamed shim
      = text ++ "\ndefine(".toList ++ (Shim.factory shim).tail :=
    (List.append_assoc _ _ _).symm
  rw [← (h.plan_for hneeded).weave, hedits, hunnamed, Edit.weave_insertAt, Shim.define_eq_named,
    List.append_assoc]

/-- **What is appended with ids is kept.** -/
theorem kept {σ : Type} (h : Appendable profile text shim program call)
    (hneeded : Shim.needed shim ≠ []) (name : String) (s : σ) :
    (Normalize.text Service.direct profile name (text ++ Shim.define name shim) s).value
      = .ok (text ++ Shim.define name shim) := by
  have hsome : ∃ call' ∈ (h.plan hneeded name).calls,
      (Shape.ofArguments call'.arguments).isComplete = false :=
    ⟨call, List.mem_singleton_self call, h.incomplete⟩
  have hkept :=
    kept_filled (h.plan_for hneeded) h.sound.unforgiven hsome profile h.unstripped name s
  rwa [h.fill_plan hneeded] at hkept

end Appendable

end Normalize

end AmdModules
