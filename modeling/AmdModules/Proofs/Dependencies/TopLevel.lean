import AmdModules.Proofs.Dependencies.Walk
import AmdModules.Proofs.Syntax.Program

/-!
# Which `require` calls count

A `require` call is meant to count only as a whole statement at the top of the program. A walk finds
that out by counting the statements, functions and classes it is in, and there is one way past the
counters. The getters and setters of an object literal open no scope, and an import or export is no
statement. So the statements of an accessor look like items of the program when its object literal
is part of an export.

The form of a tree says that this is the only way (`isWholeIn_iff`). `admits_require_iff` says which
calls count, at every place a walk comes to; `accessor_admitted` is a text in which one counts that
should not.
-/

set_option autoImplicit false

namespace AmdModules.Dependencies

open Script (Node Program Kind Role)
open Loader (Call)

/-! ## Coming to a node -/

/-- A walk comes to a node, inside the given nodes and in the given state: to the root first, and
from a node to each of its parts once the parts before that one have been walked through. -/
inductive Comes (nested : Bool) (root : Node) : List Node → Node → Walk → Prop where
  | root : Comes nested root [] root (({ } : Walk).enter root)
  | part {around before after : List Node} {parent n : Node} {w w' : Walk}
      (hparent : Comes nested root around parent w) (hparts : parent.parts = before ++ n :: after)
      (hwalk : walkAll nested (w.visit nested parent) before = some w') :
      Comes nested root (parent :: around) n (w'.enter n)

variable {nested : Bool} {root : Node} {around : List Node} {n : Node} {w : Walk}

/-- The state a walk comes to a node in is told by the nodes around it. -/
theorem Comes.standing (h : Comes nested root around n w) :
    ∃ found, w = Dependencies.standing (n :: around) found := by
  induction h with
  | root => exact ⟨[], enter_standing [] [] root⟩
  | part hparent hparts hwalk ih =>
    obtain ⟨found, rfl⟩ := ih
    rw [visit_standing, walkAll_standing] at hwalk
    cases hwalk
    exact ⟨_, enter_standing _ _ _⟩

/-- Coming to a node a walk comes to its parts. -/
theorem Comes.exists_part {parent : Node} (hparent : Comes nested root around parent w)
    (hn : n ∈ parent.parts) : ∃ w', Comes nested root (parent :: around) n w' := by
  obtain ⟨before, after, hparts⟩ := List.append_of_mem hn
  -- the walk through the parts before this one never stops
  obtain ⟨found, hw⟩ := hparent.standing
  have hwalk := walkAll_standing nested (parent :: around)
    (addAll found (idsAt (slotAdmits nested) (around, parent))) before
  rw [← visit_standing, ← hw] at hwalk
  exact ⟨_, hparent.part hparts hwalk⟩

/-- A walk comes to every node of a tree. -/
theorem Comes.of_mem_located {around' : List Node} {n' : Node} (n : Node)
    (hn : Comes nested root around n w) (h : (around', n') ∈ located around n) :
    ∃ w', Comes nested root around' n' w' :=
  Dependencies.of_mem_located (P := fun as m => ∃ w', Comes nested root as m w')
    (fun ⟨_, hparent⟩ hm => hparent.exists_part hm) n ⟨w, hn⟩ h

/-! ## Places in a well-formed program -/

/-- A place in a program: the nodes around it, up to the root, each taking the one in it. -/
inductive Placed (root : Node) : Node → List Node → Prop where
  | root : Placed root root []
  | part {n parent : Node} {around : List Node} (hpart : n ∈ parent.parts)
      (htakes : parent.kind.takes n.kind.role = true) (hparent : Placed root parent around) :
      Placed root n (parent :: around)

/-- Every node of a well-formed tree has its place. -/
theorem Placed.of_mem_located {around' : List Node} {n' : Node} (n : Node)
    (hn : Placed root n around) (hformed : n.Formed) (h : (around', n') ∈ located around n) :
    Placed root n' around' := by
  refine (Dependencies.of_mem_located (P := fun as m => Placed root m as ∧ m.Formed)
    (fun ⟨hparent, hformed⟩ hm => ?_) n ⟨hn, hformed⟩ h).1
  obtain ⟨htakes, hm'⟩ := hformed.part hm
  exact ⟨.part hm htakes hparent, hm'⟩

/-- Nothing is around a program. -/
theorem Placed.eq_root (h : Placed root n around) (hn : n.kind.role = .program) :
    n = root ∧ around = [] := by
  cases h with
  | root => exact ⟨rfl, rfl⟩
  | part _ htakes _ =>
    rw [hn] at htakes
    cases htakes

/-- Everything but the program stands in something. -/
theorem Placed.exists_parent (h : Placed root n around) (hroot : root.kind.role = .program)
    (hn : n.kind.role ≠ .program) :
    ∃ parent around', around = parent :: around' ∧ n ∈ parent.parts
      ∧ parent.kind.takes n.kind.role = true ∧ Placed root parent around' := by
  cases h with
  | root => exact absurd hroot hn
  | part hpart htakes hparent => exact ⟨_, _, rfl, hpart, htakes, hparent⟩

/-- Outside of all statements a node stands in an import or export. -/
theorem Placed.exists_item (h : Placed root n around) (hroot : root.kind.role = .program)
    (hn : n.kind.role ≠ .program) (hnone : ∀ a ∈ n :: around, a.kind.isStatement = false) :
    ∃ outer item, item.kind.role = .item ∧ n :: around = outer ++ [item, root] := by
  induction h with
  | root => exact absurd hroot hn
  | @part n parent around hpart htakes hparent ih =>
    by_cases hparent' : parent.kind.role = .program
    · -- what stands in the program is a statement or an item
      obtain ⟨rfl, rfl⟩ := hparent.eq_root hparent'
      refine ⟨[], n, ?_, rfl⟩
      refine (Kind.takes_of_program hparent' htakes).resolve_right fun hstatement => ?_
      simp [Kind.isStatement_iff.mpr hstatement] at hnone
    · obtain ⟨outer, item, hitem, heq⟩ := ih hparent' fun a ha => hnone a (by simp [ha])
      exact ⟨n :: outer, item, hitem, by rw [heq, List.cons_append]⟩

/-! ## Calls that are whole -/

/-- The node is all of an expression statement that is an item of the program. -/
def IsItem (root : Node) (around : List Node) (n : Node) : Prop :=
  ∃ statement : Node, statement.kind = .expressionStatement ∧ statement.parts = [n]
    ∧ statement ∈ root.parts ∧ around = [statement, root]

/-- The node is all of an expression statement in the body of a getter or setter. The object literal
of that accessor stands in an import or export, with no statement, function or class around it. -/
def InAccessor (root : Node) (around : List Node) (n : Node) : Prop :=
  ∃ (statement body accessor object item : Node) (outer : List Node),
    statement.kind = .expressionStatement ∧ statement.parts = [n] ∧ body.kind = .body
      ∧ (accessor.kind = .getter ∨ accessor.kind = .setter) ∧ object.kind = .object
      ∧ (∀ a ∈ outer, a.kind.isStatement = false ∧ a.kind.isScope = false)
      ∧ item.kind.role = .item
      ∧ around = statement :: body :: accessor :: object :: (outer ++ [item, root])

/-- A case, a handler or a member of a class has something that is counted around it. -/
theorem Placed.exists_counted (h : Placed root n around) (hroot : root.kind.role = .program)
    (hn : n.kind.role = .clause ∨ n.kind.role = .handler ∨ n.kind.role = .member) :
    ∃ a ∈ around, a.kind.isStatement = true ∨ a.kind.isScope = true := by
  have hinner : n.kind.role ≠ .program := by
    rcases hn with hn | hn | hn <;> simp [hn]
  obtain ⟨parent, around', rfl, -, htakes, -⟩ := h.exists_parent hroot hinner
  exact ⟨parent, by simp, Kind.counted_of_takes hn htakes⟩

/-- What a statement that is in no other may stand in: the program, or the body of a getter or
setter of an object literal. -/
theorem Placed.around_statement {statement : Node} (h : Placed root statement around)
    (hroot : root.kind.role = .program) (hstatement : statement.kind.role = .statement)
    (hnone : ∀ a ∈ around, a.kind.isStatement = false ∧ a.kind.isScope = false) :
    around = [root] ∧ statement ∈ root.parts
      ∨ ∃ (body accessor object : Node) (around' : List Node), body.kind = .body
        ∧ (accessor.kind = .getter ∨ accessor.kind = .setter) ∧ object.kind = .object
        ∧ Placed root object around' ∧ around = body :: accessor :: object :: around' := by
  obtain ⟨holder, around₁, rfl, hpart, htakes, hholder⟩ :=
    h.exists_parent hroot (by simp [hstatement])
  rw [hstatement] at htakes
  -- whatever else may hold a statement stands in a statement, a function or a class
  have hcounted {m : Node} {outer : List Node} (hm : Placed root m outer)
      (hrole : m.kind.role = .clause ∨ m.kind.role = .handler ∨ m.kind.role = .member)
      (houter : outer ⊆ holder :: around₁) : False := by
    obtain ⟨a, ha, hcounts⟩ := hm.exists_counted hroot hrole
    simp [hnone a (houter ha)] at hcounts
  rcases Kind.takes_statement htakes with hprogram | hin | hclause | hbody | hblock
  · obtain ⟨rfl, rfl⟩ := hholder.eq_root hprogram
    exact .inl ⟨rfl, hpart⟩
  · simp [hin] at hnone
  · exact (hcounted hholder (.inl hclause) (by simp)).elim
  · obtain ⟨owner, around₂, rfl, -, htakes, howner⟩ :=
      hholder.exists_parent hroot (by simp [hbody, Kind.role])
    rw [hbody] at htakes
    rcases Kind.takes_body htakes with hscope | hin | haccessor | hmember | hcatch
    · simp [hscope] at hnone
    · simp [hin] at hnone
    · obtain ⟨object, around₃, rfl, -, htakes, hobject⟩ :=
        howner.exists_parent hroot (by simp [haccessor])
      have hkind : object.kind = .object := by simpa [haccessor, Kind.takes] using htakes
      exact .inr ⟨holder, owner, object, around₃, hbody, Kind.role_eq_accessor haccessor, hkind,
        hobject, rfl⟩
    · exact (hcounted howner (.inr (.inr (by rw [hmember]; rfl))) (by simp)).elim
    · exact (hcounted howner (.inr (.inl (by rw [hcatch]; rfl))) (by simp)).elim
  · exact (hcounted hholder (.inr (.inr (by rw [hblock]; rfl))) (by simp)).elim

/-- What is whole stands in an expression statement, with nothing counted around that. -/
theorem isWholeIn_cons {statement : Node} :
    isWholeIn (statement :: around) = true ↔ statement.kind = .expressionStatement
      ∧ statement.parts.length = 1
      ∧ ∀ a ∈ around, a.kind.isStatement = false ∧ a.kind.isScope = false := by
  simp only [isWholeIn, Bool.and_eq_true, beq_iff_eq, List.all_eq_true, List.mem_cons]
  constructor
  · rintro ⟨⟨⟨hkind, hlength⟩, hcount⟩, hscopes⟩
    have hzero : around.countP (·.kind.isStatement) = 0 := by
      simpa [hkind, Kind.isStatement] using hcount
    refine ⟨hkind, hlength, fun a ha => ⟨?_, ?_⟩⟩
    · simpa using List.countP_eq_zero.mp hzero a ha
    · simpa using hscopes a (.inr ha)
  · rintro ⟨hkind, hlength, hnone⟩
    have hzero : around.countP (·.kind.isStatement) = 0 :=
      List.countP_eq_zero.mpr fun a ha => by simp [(hnone a ha).1]
    refine ⟨⟨⟨hkind, hlength⟩, ?_⟩, ?_⟩
    · rw [List.countP_cons, hzero, hkind]
      rfl
    · rintro a (rfl | ha)
      · rw [hkind]
        rfl
      · simp [(hnone a ha).2]

/-- **In a well-formed program a node is whole only as an item of the program, or in an accessor
that is part of an import or export.** -/
theorem isWholeIn_iff (h : Placed root n around) (hroot : root.kind.role = .program) :
    isWholeIn around = true ↔ IsItem root around n ∨ InAccessor root around n := by
  constructor
  · intro hwhole
    cases h with
    | root => cases hwhole
    | @part _ statement around hpart _ hstatement =>
      obtain ⟨hkind, hlength, hnone⟩ := isWholeIn_cons.mp hwhole
      obtain ⟨call, hparts⟩ := List.length_eq_one_iff.mp hlength
      obtain rfl : n = call := by simpa [hparts] using hpart
      have hrole : statement.kind.role = .statement := by rw [hkind]; rfl
      rcases hstatement.around_statement hroot hrole hnone with ⟨rfl, hitem⟩ |
        ⟨body, accessor, object, around', hbody, haccessor, hobject, hplaced, rfl⟩
      · exact .inl ⟨statement, hkind, hparts, hitem, rfl⟩
      · obtain ⟨outer, item, hitem, heq⟩ := hplaced.exists_item hroot
          (by simp [hobject, Kind.role, Kind.isStatement])
          fun a ha => (hnone a (by simp [List.mem_cons.mp ha])).1
        cases outer with
        | nil =>
          -- the object literal is no import or export itself
          obtain ⟨rfl, -⟩ := List.cons.inj heq
          simp [hobject, Kind.role, Kind.isStatement] at hitem
        | cons first outer =>
          obtain ⟨-, rfl⟩ := List.cons.inj heq
          exact .inr ⟨statement, body, accessor, object, item, outer, hkind, hparts, hbody,
            haccessor, hobject, fun a ha => hnone a (by simp [ha]), hitem, rfl⟩
  · have hprogram := @Kind.counts_nothing root.kind (by simp [hroot]) (by simp [hroot])
    rintro (⟨statement, hkind, hparts, -, rfl⟩ |
      ⟨statement, body, accessor, object, item, outer, hkind, hparts, hbody, haccessor, hobject,
        houter, hitem, rfl⟩)
    · exact isWholeIn_cons.mpr ⟨hkind, by simp [hparts], by simpa using hprogram⟩
    · refine isWholeIn_cons.mpr ⟨hkind, by simp [hparts], fun a ha => ?_⟩
      simp only [List.mem_cons, List.mem_append, List.not_mem_nil, or_false] at ha
      rcases ha with rfl | rfl | rfl | ha | rfl | rfl
      · simp [hbody, Kind.isStatement, Kind.isScope]
      · rcases haccessor with h | h
        · simp [h, Kind.isStatement, Kind.isScope]
        · simp [h, Kind.isStatement, Kind.isScope]
      · simp [hobject, Kind.isStatement, Kind.isScope]
      · exact houter a ha
      · exact Kind.counts_nothing (by simp [hitem]) (by simp [hitem])
      · exact hprogram

/-! ## The calls that count -/

/-- **Which `require` calls count.** In an accepted text a walk comes to every call of `require`.
Unless nested calls are asked for, it counts the call exactly when the call is all of an expression
statement that is an item of the program, or of one in an accessor that is part of an import or
export. No call in a function, an arrow, a class or a nested statement counts. -/
theorem admits_require_iff {dialect : Script.Dialect} {text : List Char} {program : Program}
    (hmarkup : dialect.markup = false) (hparse : Script.parse dialect text = some program)
    {around : List Node} {n : Node} {call : Call}
    (hmem : (around, n) ∈ located [] program.root) (hcall : Call.ofNode? n = some call)
    (hrequire : call.function = .require) :
    (∃ w, Comes false program.root around n w)
      ∧ ∀ w, Comes false program.root around n w →
        (w.admits false call = true
            ↔ IsItem program.root around n ∨ InAccessor program.root around n)
          ∧ (w.admits false call = true → around.countP (·.kind.isStatement) = 1
            ∧ ∀ a ∈ around, a.kind.isScope = false) := by
  obtain ⟨hkind, hspan⟩ := call_of_ofNode? hcall
  have hroot := Script.parse_formed hmarkup hparse
  have hplaced := Placed.of_mem_located program.root .root hroot.formed hmem
  refine ⟨Comes.of_mem_located program.root .root hmem, fun w hw => ?_⟩
  have hadmits : w.admits false call = true ↔ isWholeIn around = true := by
    obtain ⟨found, rfl⟩ := hw.standing
    rw [admits_standing false around found hcall]
    simp only [slotAdmits, hrequire, Bool.false_or, beq_iff_eq, hspan]
    exact slot_eq_some_iff (callsApart_of_parse hmarkup hparse) hmem hkind
  rw [hadmits]
  refine ⟨isWholeIn_iff hplaced hroot.role_eq, fun hwhole => ?_⟩
  cases around with
  | nil => cases hwhole
  | cons statement around =>
    simp only [isWholeIn, Bool.and_eq_true, beq_iff_eq] at hwhole
    exact ⟨hwhole.1.2, fun a ha => by simpa using List.all_eq_true.mp hwhole.2 a ha⟩

/-- The `require` calls of a tree that count by the place that is remembered, and where they are. -/
def countedRequires (root : Node) : List (List Node × Node) :=
  (located [] root).filter fun place => match Call.ofNode? place.2 with
    | some call => call.function == .require && slotAdmits false place.1 call
    | none => false

/-- A walk counts the calls that count by the place that is remembered. -/
theorem exists_comes_of_mem_countedRequires {place : List Node × Node}
    (h : place ∈ countedRequires root) :
    place ∈ located [] root ∧ ∃ call w, Call.ofNode? place.2 = some call
      ∧ call.function = .require ∧ Comes false root place.1 place.2 w
      ∧ w.admits false call = true := by
  obtain ⟨hmem, hcounts⟩ := List.mem_filter.mp h
  refine ⟨hmem, ?_⟩
  split at hcounts
  · rename_i call hcall
    obtain ⟨hrequire, hadmits⟩ := Bool.and_eq_true_iff.mp hcounts
    obtain ⟨w, hw⟩ := Comes.of_mem_located root .root hmem
    refine ⟨call, w, hcall, by simpa using hrequire, hw, ?_⟩
    obtain ⟨found, rfl⟩ := hw.standing
    rw [admits_standing false place.1 found hcall, hadmits]
  · cases hcounts

/-- In the script that asks for modules in three places, the call that counts is an item. -/
theorem admits_require_asking :
    ∃ program around n call w,
      Script.parse MediaType.javaScript.dialect askingModule.content = some program
        ∧ (around, n) ∈ located [] program.root ∧ Call.ofNode? n = some call
        ∧ call.function = .require ∧ Comes false program.root around n w
        ∧ w.admits false call = true ∧ IsItem program.root around n := by
  have hparse := (Option.some_get askingModule_accepted).symm
  have hany : (countedRequires (Option.get _ askingModule_accepted).root).any (·.1.length == 2)
      = true := by decide +kernel
  obtain ⟨⟨around, n⟩, hcounted, hlength⟩ := List.any_eq_true.mp hany
  obtain ⟨hmem, call, w, hcall, hrequire, hw, hadmits⟩ :=
    exists_comes_of_mem_countedRequires hcounted
  refine ⟨_, around, n, call, w, hparse, hmem, hcall, hrequire, hw, hadmits, ?_⟩
  have hwhole := ((admits_require_iff rfl hparse hmem hcall hrequire).2 w hw).1.mp hadmits
  refine hwhole.resolve_right ?_
  rintro ⟨statement, body, accessor, object, item, outer, -, -, -, -, -, -, -, rfl⟩
  simp at hlength

/-- An export with a getter that asks for a module. -/
def exportedGetter : List Char :=
  "export default \x7b get a() \x7b require(['x']); \x7d \x7d;".toList

theorem exportedGetter_accepted :
    (Script.parse MediaType.javaScript.dialect exportedGetter).isSome = true := by
  decide +kernel

/-- A call in a getter counts, though it is no item of the program. -/
theorem accessor_admitted :
    ∃ program around n call w,
      Script.parse MediaType.javaScript.dialect exportedGetter = some program
        ∧ (around, n) ∈ located [] program.root ∧ Call.ofNode? n = some call
        ∧ call.function = .require ∧ Comes false program.root around n w
        ∧ w.admits false call = true ∧ ¬IsItem program.root around n
        ∧ ofTree false program.root = ["x"] := by
  have hparse := (Option.some_get exportedGetter_accepted).symm
  have hany : (countedRequires (Option.get _ exportedGetter_accepted).root).any (·.1.length == 6)
      = true := by decide +kernel
  obtain ⟨⟨around, n⟩, hcounted, hlength⟩ := List.any_eq_true.mp hany
  obtain ⟨hmem, call, w, hcall, hrequire, hw, hadmits⟩ :=
    exists_comes_of_mem_countedRequires hcounted
  refine ⟨_, around, n, call, w, hparse, hmem, hcall, hrequire, hw, hadmits, ?_, by decide +kernel⟩
  rintro ⟨statement, -, -, -, rfl⟩
  simp at hlength

end AmdModules.Dependencies
