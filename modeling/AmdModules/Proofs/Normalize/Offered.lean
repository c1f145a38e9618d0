import AmdModules.Proofs.Dependencies.Recording
import AmdModules.Proofs.Normalize.Result

/-!
# The definitions that both walks meet

Two walks go through the tree of a module: one collects ids, the other records edits, for which it
counts the calls of `define` and offers each for repair. A call of `define` that only one of them
came to would be collected from a module that does not have it, or the other way round.

The walk that records edits is run here with the calls it counts kept beside the edits (`pass`),
which changes nothing about them (`pass_eq`). What it counts are the definitions of the tree, and so
are the calls of `define` that the other one takes ids from (`definitions_met`).
-/

set_option autoImplicit false

namespace AmdModules

open Script (Node Program)
open Loader (Call)

/-! ## A walk and the calls it offers for repair -/

namespace Normalize

/-- What a walk that records edits has done so far. -/
structure Pass where
  /-- The calls of `define` it has counted and offered for repair. -/
  counted : List Call := []
  edits : List Edit := []

section

variable (useStrict : Bool) (name : String) (text : List Char) (comments : List Span)

/-- What becomes of the state in a node: a strict statement goes unless it may stay, and a call of
`define` is counted and repaired. -/
def Pass.visit (p : Pass) (n : Node) : Pass :=
  let stripped :=
    if isUseStrict n && !useStrict then [.delete (n.span.throughPosition text)] else []
  match Call.definition? n with
  | some call =>
    { counted := p.counted ++ [call]
      edits := p.edits ++ stripped ++ callEdits name text comments call }
  | none => { p with edits := p.edits ++ stripped }

mutual

/-- Walks through a tree and keeps the calls that are offered for repair. -/
def pass (p : Pass) : Node → Pass
  | .mk kind span parts =>
    passAll (p.visit useStrict name text comments (.mk kind span parts)) parts

def passAll (p : Pass) : List Node → Pass
  | [] => p
  | n :: ns => passAll (pass p n) ns

end

theorem Pass.visit_eq (p : Pass) (n : Node) :
    p.visit useStrict name text comments n
      = { counted := p.counted ++ (Call.definition? n).toList
          edits := p.edits ++ nodeEdits useStrict name text comments n } := by
  unfold Pass.visit nodeEdits
  cases huse : isUseStrict n with
  | true =>
    rw [definition?_of_isUseStrict huse]
    cases useStrict <;> simp
  | false => cases Call.definition? n <;> simp

mutual

/-- **Counting changes nothing about the edits**, and what is counted are the definitions. -/
theorem pass_eq (p : Pass) (n : Node) :
    pass useStrict name text comments p n
      = { counted := p.counted ++ n.preorder.filterMap Call.definition?
          edits := p.edits ++ n.preorder.flatMap (nodeEdits useStrict name text comments) } := by
  match n with
  | .mk kind span parts =>
    rw [pass, passAll_eq, Pass.visit_eq, Node.preorder, List.filterMap_cons, List.flatMap_cons]
    cases Call.definition? (.mk kind span parts) <;> simp

theorem passAll_eq (p : Pass) (ns : List Node) :
    passAll useStrict name text comments p ns
      = { counted := p.counted ++ (Node.preorderAll ns).filterMap Call.definition?
          edits := p.edits
            ++ (Node.preorderAll ns).flatMap (nodeEdits useStrict name text comments) } := by
  match ns with
  | [] => simp [passAll, Node.preorderAll]
  | n :: ns =>
    rw [passAll, pass_eq, passAll_eq, Node.preorderAll]
    simp

end

end

/-- The walk that records the edits of a module. -/
def passOver (profile : Profile) (name : String) (text : List Char) (program : Program) : Pass :=
  pass profile.useStrict name text (program.comments.map (·.throughPosition text)) { } program.root

theorem passOver_eq (profile : Profile) (name : String) (text : List Char) (program : Program) :
    passOver profile name text program
      = { counted := Loader.definitions program.root
          edits := treeEdits profile.useStrict name text program } := by
  rw [passOver, pass_eq]
  rfl

/-! ## What is reported -/

theorem appendsDefinition_mem_events (name : String) (program : Program) :
    .appendsDefinition name ∈ events name program ↔ Loader.definitions program.root = [] := by
  unfold events
  split
  · rename_i hlength
    simpa using hlength
  · rename_i hlength
    simp only [List.not_mem_nil, false_iff, ← List.length_eq_zero_iff]
    omega
  · rename_i hnone _
    simpa using fun h => hnone (List.length_eq_zero_iff.mpr h)

theorem severalDefinitions_mem_events (name : String) (program : Program) (count : Nat) :
    .severalDefinitions count name ∈ events name program ↔
      count = (Loader.definitions program.root).length ∧ 1 < count := by
  unfold events
  split
  · rename_i hlength
    simp only [hlength, List.mem_singleton, reduceCtorEq, false_iff]
    omega
  · rename_i hlength
    simp only [hlength, List.not_mem_nil, false_iff]
    omega
  · rename_i hnone hone
    have hseveral : 1 < (Loader.definitions program.root).length := by
      have : (Loader.definitions program.root).length ≠ 0 := hnone
      have : (Loader.definitions program.root).length ≠ 1 := hone
      omega
    simp only [List.mem_singleton, Event.severalDefinitions.injEq, and_true]
    exact ⟨fun h => ⟨h, h ▸ hseveral⟩, And.left⟩

/-- **Both walks meet the same definitions.** The calls of `define` among those that the
dependencies of a module are taken from are, one by one and in the same order, the calls that are
counted and offered for repair. So a call is appended exactly when the walk that collects ids comes
to none. -/
theorem definitions_met (profile : Profile) (nested : Bool) (name : String) (text : List Char)
    (program : Program) :
    ∃ r : Dependencies.Recording,
      Dependencies.record nested { } program.root = some r
        ∧ Dependencies.walk nested { } program.root = some r.walk
        ∧ Dependencies.ofTree nested program.root
          = (r.taken.flatMap Dependencies.idsOf).eraseDups
        ∧ (passOver profile name text program).edits
          = treeEdits profile.useStrict name text program
        ∧ r.definitions = (passOver profile name text program).counted
        ∧ edits profile name text program
          = (passOver profile name text program).edits
            ++ (if r.definitions = [] then
              [.insertAt (Text.byteLength text) (Shim.define name (profile.shim? name))] else [])
        ∧ (.appendsDefinition name ∈ events name program ↔ r.definitions = [])
        ∧ ∀ count, .severalDefinitions count name ∈ events name program ↔
          count = r.definitions.length ∧ 1 < count := by
  obtain ⟨r, hrecord, hwalk, hfound, hdefinitions⟩ :=
    Dependencies.exists_record nested program.root
  rw [passOver_eq]
  refine ⟨r, hrecord, hwalk, ?_, rfl, hdefinitions, ?_, ?_, fun count => ?_⟩
  · rw [Dependencies.ofTree, hwalk]
    exact hfound
  · simp only [edits, hdefinitions, List.isEmpty_iff]
  · rw [hdefinitions]
    exact appendsDefinition_mem_events name program
  · rw [hdefinitions]
    exact severalDefinitions_mem_events name program count

end Normalize

end AmdModules
