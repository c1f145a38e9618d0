import AmdModules.Proofs.Dependencies.Walk

/-!
# The calls that ids are taken from

The walk that collects ids enters and leaves each node, counts what stands around it and decides by
that which calls of `require` it takes. It leaves the ids behind but not the calls, so it is run
here with the calls kept beside its state (`record`). Keeping them changes nothing (`record_walk`).
A step takes every call of `define` whatever the counters say (`takes_visit`), and by induction over
the tree a walk takes the definitions of the tree in their order (`record_takes`).
-/

set_option autoImplicit false

namespace AmdModules

open Script (Node)
open Loader (Call)

namespace Dependencies

/-! ## A walk and the calls it takes ids from -/

/-- The ids of a call, each behind the plugin it needs. -/
def idsOf (call : Call) : List String :=
  call.ids.flatMap withPlugin

/-- The call that a walk takes ids from in a node, if there is one. -/
def Walk.takes? (w : Walk) (nested : Bool) (n : Node) : Option Call :=
  (Call.ofNode? n).filter (w.admits nested)

/-- A walk, and the calls it has taken ids from in the order it met them. -/
structure Recording where
  walk : Walk := { }
  taken : List Call := []

namespace Recording

/-- The calls of `define` among those taken. -/
def definitions (r : Recording) : List Call :=
  r.taken.filter (·.function = .define)

/-- Goes into a node and takes what it names itself. -/
def visit (r : Recording) (nested : Bool) (n : Node) : Recording where
  walk := (r.walk.enter n).visit nested n
  taken := r.taken ++ ((r.walk.enter n).takes? nested n).toList

end Recording

mutual

/-- Walks through a tree and keeps the calls that ids are taken from. -/
def record (nested : Bool) (r : Recording) : Node → Option Recording
  | .mk kind span parts => do
    let inner ← recordAll nested (r.visit nested (.mk kind span parts)) parts
    let walk ← inner.walk.leave kind r.walk.whole
    return { inner with walk }

def recordAll (nested : Bool) (r : Recording) : List Node → Option Recording
  | [] => some r
  | n :: ns => do
    let r ← record nested r n
    recordAll nested r ns

end

mutual

/-- **Keeping the calls changes nothing about the walk.** -/
theorem record_walk (nested : Bool) (r : Recording) (n : Node) :
    (record nested r n).map (·.walk) = walk nested r.walk n := by
  match n with
  | .mk kind span parts =>
    have hparts : _ = walkAll nested
        ((r.walk.enter (.mk kind span parts)).visit nested (.mk kind span parts)) parts :=
      recordAll_walk nested (r.visit nested (.mk kind span parts)) parts
    rw [record, walk, ← hparts]
    cases recordAll nested (r.visit nested (.mk kind span parts)) parts with
    | none => rfl
    | some inner =>
      change (inner.walk.leave kind r.walk.whole >>= fun walk => some { inner with walk }).map
          (·.walk) = inner.walk.leave kind r.walk.whole
      cases inner.walk.leave kind r.walk.whole <;> rfl

theorem recordAll_walk (nested : Bool) (r : Recording) (ns : List Node) :
    (recordAll nested r ns).map (·.walk) = walkAll nested r.walk ns := by
  match ns with
  | [] => rfl
  | n :: ns =>
    rw [recordAll, walkAll, ← record_walk]
    cases record nested r n with
    | none => rfl
    | some r' => exact recordAll_walk nested r' ns

end

/-! ## What is taken -/

/-- From one recording to the next the calls taken are added behind the others, what is found are
their ids, and the definitions among them are the given ones. -/
def Takes (r r' : Recording) (definitions : List Call) : Prop :=
  ∃ calls, r'.taken = r.taken ++ calls
    ∧ r'.walk.found = addAll r.walk.found (calls.flatMap idsOf)
    ∧ calls.filter (·.function = .define) = definitions

namespace Takes

theorem refl (r : Recording) : Takes r r [] :=
  ⟨[], by simp, rfl, rfl⟩

theorem trans {r r' r'' : Recording} {definitions definitions' : List Call}
    (h : Takes r r' definitions) (h' : Takes r' r'' definitions') :
    Takes r r'' (definitions ++ definitions') := by
  obtain ⟨calls, htaken, hfound, rfl⟩ := h
  obtain ⟨calls', htaken', hfound', rfl⟩ := h'
  refine ⟨calls ++ calls', ?_, ?_, List.filter_append _ _⟩
  · rw [htaken', htaken, List.append_assoc]
  · rw [hfound', hfound, List.flatMap_append, addAll_append]

end Takes

/-- Whatever a walk has counted, it takes the definition that a node is. -/
theorem filter_takes? (w : Walk) (nested : Bool) (n : Node) :
    (w.takes? nested n).toList.filter (·.function = .define) = (Call.definition? n).toList := by
  unfold Walk.takes? Call.definition?
  cases Call.ofNode? n with
  | none => rfl
  | some call =>
    cases hfunction : call.function with
    | define => simp [Option.filter, Walk.admits, hfunction]
    | require =>
      cases hadmits : w.admits nested call with
      | true => simp [Option.filter, hadmits, hfunction]
      | false => simp [Option.filter, hadmits, hfunction]

theorem found_visit (w : Walk) (nested : Bool) (n : Node) :
    (w.visit nested n).found = addAll w.found ((w.takes? nested n).toList.flatMap idsOf) := by
  unfold Walk.visit Walk.takes?
  cases Call.ofNode? n with
  | none => rfl
  | some call =>
    cases hadmits : w.admits nested call with
    | true => simp [Option.filter, hadmits, idsOf]
    | false => simp [Option.filter, hadmits, addAll]

/-- **One step takes the definition that the node is**, and none if it is none. -/
theorem takes_visit (r : Recording) (nested : Bool) (n : Node) :
    Takes r (r.visit nested n) (Call.definition? n).toList :=
  ⟨_, rfl, found_visit (r.walk.enter n) nested n, filter_takes? _ nested n⟩

theorem found_leave {w w' : Walk} {kind : Script.Kind} {previous : Option Span}
    (h : w.leave kind previous = some w') : w'.found = w.found := by
  unfold Walk.leave at h
  simp only [Option.bind_eq_bind, Option.bind_eq_some_iff] at h
  obtain ⟨statements, -, scopes, -, h⟩ := h
  cases h
  rfl

mutual

/-- **A walk through a tree takes the definitions of the tree**, in the order of the tree. -/
theorem record_takes (nested : Bool) {r r' : Recording} (n : Node)
    (h : record nested r n = some r') : Takes r r' (n.preorder.filterMap Call.definition?) := by
  match n with
  | .mk kind span parts =>
    rw [record] at h
    obtain ⟨inner, hparts, h⟩ := Option.bind_eq_some_iff.mp h
    obtain ⟨walk, hleave, h⟩ := Option.bind_eq_some_iff.mp h
    cases h
    obtain ⟨calls, htaken, hfound, hcalls⟩ :=
      (takes_visit r nested _).trans (recordAll_takes nested parts hparts)
    refine ⟨calls, htaken, (found_leave hleave).trans hfound, hcalls.trans ?_⟩
    rw [Node.preorder, List.filterMap_cons]
    cases Call.definition? (.mk kind span parts) <;> rfl

theorem recordAll_takes (nested : Bool) {r r' : Recording} (ns : List Node)
    (h : recordAll nested r ns = some r') :
    Takes r r' ((Node.preorderAll ns).filterMap Call.definition?) := by
  match ns with
  | [] =>
    cases h
    exact .refl r
  | n :: ns =>
    rw [recordAll] at h
    obtain ⟨between, hfirst, hothers⟩ := Option.bind_eq_some_iff.mp h
    rw [Node.preorderAll, List.filterMap_append]
    exact (record_takes nested n hfirst).trans (recordAll_takes nested ns hothers)

end

/-- A walk through a program ends, with the definitions of the program taken. -/
theorem exists_record (nested : Bool) (root : Node) :
    ∃ r, record nested { } root = some r ∧ walk nested { } root = some r.walk
      ∧ r.walk.found = (r.taken.flatMap idsOf).eraseDups
      ∧ r.definitions = Loader.definitions root := by
  have hrecord : (record nested { } root).map (·.walk) = walk nested { } root :=
    record_walk nested { } root
  -- the counters never run below zero, so there is something to record
  have hwalk : walk nested { } root = some _ := walk_standing nested [] [] root
  obtain ⟨r, hr, hrwalk⟩ := Option.map_eq_some_iff.mp (hrecord.trans hwalk)
  obtain ⟨calls, htaken, hfound, hcalls⟩ := record_takes nested root hr
  have htaken : r.taken = calls := htaken
  refine ⟨r, hr, by rw [hwalk, hrwalk], ?_, ?_⟩
  · rw [hfound, htaken]
    exact addAll_nil _
  · rw [Recording.definitions, htaken, hcalls]
    rfl

end Dependencies

end AmdModules
