import AmdModules.Module.Analyze
import AmdModules.Proofs.Layout.Program

/-!
# What a walk finds

A walk counts the statements and scopes it is in and remembers by its place which call is whole. All
of that is a property of the path from the root of the tree to the node the walk stands at:
`standing` is the state of a walk as a function of the nodes around it, and `walk_standing` says
that a walk through any tree comes back to the state it started in, with the ids of the tree added.

Places name calls: in the tree of an accepted text no call inside a call has its place
(`Script.parse_owned`). So a call has the place that is remembered exactly when it is itself all of
its statement (`slot_eq_some_iff`), and what is found can be told from the tree alone
(`found_declared`).
-/

set_option autoImplicit false

namespace AmdModules

open Script (Node Program)
open Loader (Call)

namespace Dependencies

/-! ## Adding ids -/

theorem addAll_append (found ids ids' : List String) :
    addAll found (ids ++ ids') = addAll (addAll found ids) ids' :=
  List.foldl_append

/-- Ids are added behind the others, those that are new and each once. -/
theorem addAll_eq (found ids : List String) :
    addAll found ids = found ++ (ids.filter (· ∉ found)).eraseDups := by
  induction ids generalizing found with
  | nil => simp [addAll]
  | cons id ids ih =>
    rw [addAll, List.foldl_cons, ← addAll, ih]
    by_cases hid : id ∈ found
    · have hadd : add found id = found := by simp [add, hid]
      simp [hadd, hid]
    · have hadd : add found id = found ++ [id] := by simp [add, hid]
      have hnew : ids.filter (· ∉ found ++ [id]) = (ids.filter (· ∉ found)).filter (!· == id) := by
        rw [List.filter_filter]
        refine List.filter_congr fun other _ => ?_
        by_cases hother : other = id <;> simp [hother]
      rw [hadd, List.filter_cons_of_pos (by simpa using hid), List.eraseDups_cons, hnew,
        List.append_assoc]
      rfl

theorem addAll_nil (ids : List String) : addAll [] ids = ids.eraseDups := by
  rw [addAll_eq]
  simp

theorem prefix_addAll (found ids : List String) : found <+: addAll found ids := by
  rw [addAll_eq]
  exact List.prefix_append _ _

theorem nodup_add {found : List String} (h : found.Nodup) (id : String) : (add found id).Nodup := by
  unfold add
  split
  · exact h
  · rename_i hid
    have hnew : id ∉ found := by simpa using hid
    exact List.nodup_append.mpr ⟨h, by simp, by grind⟩

theorem nodup_addAll {found : List String} (h : found.Nodup) (ids : List String) :
    (addAll found ids).Nodup := by
  induction ids generalizing found with
  | nil => exact h
  | cons id ids ih => exact ih (nodup_add h id)

/-! ## What a tree names -/

mutual

/-- The nodes of a tree in the order of a walk, each with the nodes around it, the innermost
first. -/
def located (around : List Node) : Node → List (List Node × Node)
  | .mk kind span parts =>
    (around, .mk kind span parts) :: locatedAll (.mk kind span parts :: around) parts

def locatedAll (around : List Node) : List Node → List (List Node × Node)
  | [] => []
  | n :: ns => located around n ++ locatedAll around ns

end

/-- Whether what stands in the given nodes is all of an expression statement, with no statement
around that one and no function or class. -/
def isWholeIn : List Node → Bool
  | [] => false
  | statement :: around =>
    statement.kind == .expressionStatement && statement.parts.length == 1
      && (statement :: around).countP (·.kind.isStatement) == 1
      && (statement :: around).all (!·.kind.isScope)

/-- Whether a loader call in the given nodes counts. -/
def admitted (nested : Bool) (around : List Node) (call : Call) : Bool :=
  match call.function with
  | .define => true
  | .require => nested || isWholeIn around

/-- An id, and in front of it what stands before its first exclamation mark, if there is
something. -/
def contributions (id : String) : List String :=
  if '!' ∈ id.toList ∧ id.toList.takeWhile (· != '!') ≠ [] then
    [String.ofList (id.toList.takeWhile (· != '!')), id]
  else [id]

/-- The ids of a node whose calls count as `counts` says. -/
def idsAt (counts : List Node → Call → Bool) (place : List Node × Node) : List String :=
  match Call.ofNode? place.2 with
  | some call => if counts place.1 call then call.ids.flatMap contributions else []
  | none => []

/-- The ids of the calls of a tree that count, in the order of a walk. -/
def declared (nested : Bool) (root : Node) : List String :=
  (located [] root).flatMap (idsAt (admitted nested))

theorem splitFirst?_eq (separator : Char) (cs : List Char) :
    (Text.splitFirst? separator cs).map Prod.fst
      = if separator ∈ cs then some (cs.takeWhile (· != separator)) else none := by
  induction cs with
  | nil => rfl
  | cons c cs ih =>
    by_cases hc : c = separator
    · simp [Text.splitFirst?, hc]
    · have hcons : (Text.splitFirst? separator (c :: cs)).map Prod.fst
          = ((Text.splitFirst? separator cs).map Prod.fst).map (c :: ·) := by
        simp [Text.splitFirst?, hc, Function.comp_def]
      rw [hcons, ih]
      by_cases hmem : separator ∈ cs <;> simp [hmem, hc, Ne.symm hc]

/-- The plugin of an id is what stands in front of its first exclamation mark. -/
theorem withPlugin_eq (id : String) : withPlugin id = contributions id := by
  have hsplit := splitFirst?_eq '!' id.toList
  unfold withPlugin contributions ModuleId.plugin?
  cases hfirst : Text.splitFirst? '!' id.toList with
  | none =>
    rw [hfirst] at hsplit
    have hmem : '!' ∉ id.toList := fun hmem => by simp [hmem] at hsplit
    simp [hmem]
  | some parts =>
    rw [hfirst] at hsplit
    obtain ⟨plugin, resource⟩ := parts
    obtain ⟨hmem, hplugin⟩ : '!' ∈ id.toList ∧ plugin = id.toList.takeWhile (· != '!') := by
      simpa [eq_comm] using hsplit
    rw [← hplugin]
    cases plugin <;> simp [hmem]

/-! ## The state of a walk -/

/-- The place that is remembered inside the given nodes: that of the call the innermost expression
statement consists of. -/
def slot : List Node → Option Span
  | [] => none
  | n :: around =>
    if n.kind == .expressionStatement then
      if (n :: around).countP (·.kind.isStatement) == 1
          && (n :: around).countP (·.kind.isScope) == 0 then wholeCall? n.parts
      else none
    else slot around

/-- The state of a walk inside the given nodes. -/
def standing (around : List Node) (found : List String) : Walk :=
  { statements := around.countP (·.kind.isStatement)
    scopes := around.countP (·.kind.isScope)
    whole := slot around
    found }

/-- Whether a loader call counts by the place that is remembered. -/
def slotAdmits (nested : Bool) (around : List Node) (call : Call) : Bool :=
  match call.function with
  | .define => true
  | .require => nested || slot around == some call.span

theorem countIf_countP (p : Node → Bool) (n : Node) (around : List Node) :
    countIf (p n) (around.countP p) = (n :: around).countP p := by
  cases hp : p n <;> simp [countIf, hp]

theorem uncountIf_countP (p : Node → Bool) (n : Node) (around : List Node) :
    uncountIf (p n) ((n :: around).countP p) = some (around.countP p) := by
  cases hp : p n <;> simp [uncountIf, hp]

theorem enter_standing (around : List Node) (found : List String) (n : Node) :
    (standing around found).enter n = standing (n :: around) found := by
  simp only [Walk.enter, standing, slot, countIf_countP (·.kind.isStatement),
    countIf_countP (·.kind.isScope)]

theorem leave_standing (around : List Node) (found : List String) (n : Node) :
    (standing (n :: around) found).leave n.kind (slot around) = some (standing around found) := by
  simp only [Walk.leave, standing, uncountIf_countP (·.kind.isStatement),
    uncountIf_countP (·.kind.isScope), slot, Option.bind_eq_bind, Option.bind_some]
  split
  · rfl
  · rfl

theorem wholeCall?_eq_some {parts : List Node} {span : Span} (h : wholeCall? parts = some span) :
    ∃ call : Node, parts = [call] ∧ call.kind = .call ∧ call.span = span := by
  unfold wholeCall? at h
  split at h
  · obtain ⟨hkind, hspan⟩ := Option.ite_none_right_eq_some.mp h
    exact ⟨_, rfl, by simpa using hkind, Option.some.inj hspan⟩
  · cases h

theorem call_of_ofNode? {n : Node} {call : Call} (h : Call.ofNode? n = some call) :
    n.kind = .call ∧ call.span = n.span := by
  unfold Call.ofNode? at h
  split at h
  · obtain ⟨function, -, rfl⟩ := Option.map_eq_some_iff.mp h
    exact ⟨rfl, rfl⟩
  · cases h

/-- Whether a call counts is told by the nodes around it. -/
theorem admits_standing (nested : Bool) (around : List Node) (found : List String) {n : Node}
    {call : Call} (hcall : Call.ofNode? n = some call) :
    (standing (n :: around) found).admits nested call = slotAdmits nested around call := by
  -- a call is no statement, so what is remembered inside it was remembered around it
  have hslot : slot (n :: around) = slot around := by
    rw [slot, (call_of_ofNode? hcall).1]
    rfl
  unfold Walk.admits slotAdmits
  cases call.function with
  | define => rfl
  | require => simp only [standing, hslot]

/-- A node adds what it names where it stands. -/
theorem visit_standing (nested : Bool) (around : List Node) (found : List String) (n : Node) :
    (standing (n :: around) found).visit nested n
      = standing (n :: around) (addAll found (idsAt (slotAdmits nested) (around, n))) := by
  unfold Walk.visit idsAt
  cases hcall : Call.ofNode? n with
  | none => rfl
  | some call =>
    simp only [admits_standing nested around found hcall,
      show withPlugin = contributions from funext withPlugin_eq]
    split
    · rfl
    · rfl

mutual

/-- **A walk comes back to where it started**, with the ids of the tree added. -/
theorem walk_standing (nested : Bool) (around : List Node) (found : List String) (n : Node) :
    walk nested (standing around found) n
      = some (standing around
          (addAll found ((located around n).flatMap (idsAt (slotAdmits nested))))) := by
  match n with
  | .mk kind span parts =>
    rw [walk, enter_standing, visit_standing, walkAll_standing]
    rw [located, List.flatMap_cons, addAll_append]
    exact leave_standing around _ (.mk kind span parts)

theorem walkAll_standing (nested : Bool) (around : List Node) (found : List String)
    (ns : List Node) :
    walkAll nested (standing around found) ns
      = some (standing around
          (addAll found ((locatedAll around ns).flatMap (idsAt (slotAdmits nested))))) := by
  match ns with
  | [] => rfl
  | n :: ns =>
    rw [walkAll, walk_standing, locatedAll, List.flatMap_append, addAll_append]
    exact walkAll_standing nested around _ ns

end

/-! ## The place that is remembered -/

/-- Each of the nodes is a part of the next. -/
def Nests : Node → List Node → Prop
  | _, [] => True
  | n, parent :: around => n ∈ parent.parts ∧ Nests parent around

theorem mem_preorder_self (n : Node) : n ∈ n.preorder := by
  obtain ⟨kind, span, parts⟩ := n
  rw [Node.preorder]
  exact List.mem_cons_self

theorem mem_preorderAll {n : Node} {ns : List Node} (h : n ∈ ns) : n ∈ Node.preorderAll ns := by
  induction ns with
  | nil => cases h
  | cons m ns ih =>
    rw [Node.preorderAll, List.mem_append]
    rcases List.mem_cons.mp h with rfl | h
    · exact .inl (mem_preorder_self n)
    · exact .inr (ih h)

mutual

/-- The parts of a node of a tree are in the tree. -/
theorem mem_preorder_of_part {n parent : Node} (hpart : n ∈ parent.parts) (root : Node)
    (h : parent ∈ root.preorder) : n ∈ root.preorder := by
  match root with
  | .mk kind span parts =>
    rw [Node.preorder] at h ⊢
    rcases List.mem_cons.mp h with rfl | h
    · exact List.mem_cons_of_mem _ (mem_preorderAll hpart)
    · exact List.mem_cons_of_mem _ (mem_preorderAll_of_part hpart parts h)

theorem mem_preorderAll_of_part {n parent : Node} (hpart : n ∈ parent.parts) (roots : List Node)
    (h : parent ∈ Node.preorderAll roots) : n ∈ Node.preorderAll roots := by
  match roots with
  | [] =>
    rw [Node.preorderAll] at h
    cases h
  | root :: roots =>
    rw [Node.preorderAll, List.mem_append] at h ⊢
    rcases h with h | h
    · exact .inl (mem_preorder_of_part hpart root h)
    · exact .inr (mem_preorderAll_of_part hpart roots h)

end

mutual

/-- What passes from a node to its parts, each with the nodes around it, holds all over a tree. -/
theorem of_mem_located {P : List Node → Node → Prop}
    (hpart : ∀ {around : List Node} {parent m : Node}, P around parent → m ∈ parent.parts →
      P (parent :: around) m)
    {around around' : List Node} {n' : Node} (n : Node) (hn : P around n)
    (h : (around', n') ∈ located around n) : P around' n' := by
  match n with
  | .mk kind span parts =>
    rw [located] at h
    rcases List.mem_cons.mp h with heq | h
    · obtain ⟨rfl, rfl⟩ := Prod.mk.inj heq
      exact hn
    · exact of_mem_locatedAll hpart parts (fun m hm => hpart hn hm) h

theorem of_mem_locatedAll {P : List Node → Node → Prop}
    (hpart : ∀ {around : List Node} {parent m : Node}, P around parent → m ∈ parent.parts →
      P (parent :: around) m)
    {around around' : List Node} {n' : Node} (ns : List Node) (hns : ∀ n ∈ ns, P around n)
    (h : (around', n') ∈ locatedAll around ns) : P around' n' := by
  match ns with
  | [] =>
    rw [locatedAll] at h
    cases h
  | n :: ns =>
    rw [locatedAll] at h
    rcases List.mem_append.mp h with h | h
    · exact of_mem_located hpart n (hns n (by simp)) h
    · exact of_mem_locatedAll hpart ns (fun m hm => hns m (by simp [hm])) h

end

/-- The nodes around a node of a tree nest, and are nodes of the tree or stand around it. -/
theorem nests_of_mem_located {around around' : List Node} {n' : Node} (n : Node)
    (hnests : Nests n around) (h : (around', n') ∈ located around n) :
    Nests n' around' ∧ ∀ a ∈ around', a ∈ around ∨ a ∈ n.preorder := by
  obtain ⟨hnests', -, haround⟩ :=
    of_mem_located
      (P := fun as m => Nests m as ∧ m ∈ n.preorder ∧ ∀ a ∈ as, a ∈ around ∨ a ∈ n.preorder)
      (fun ⟨hparent, hmem, haround⟩ hm => ⟨⟨hm, hparent⟩, mem_preorder_of_part hm n hmem,
        List.forall_mem_cons.mpr ⟨.inr hmem, haround⟩⟩)
      n ⟨hnests, mem_preorder_self n, fun _ ha => .inl ha⟩ h
  exact ⟨hnests', haround⟩

/-- The call that is remembered is the node itself, as all of its statement, or stands around it. -/
theorem slot_cases {n : Node} {around : List Node} {span : Span} (hnests : Nests n around)
    (h : slot around = some span) :
    ∃ call : Node, call.kind = .call ∧ call.span = span
      ∧ (call = n ∧ isWholeIn around = true
        ∨ call ∈ around ∧ n ∈ Node.preorderAll call.parts) := by
  induction around generalizing n with
  | nil => cases h
  | cons parent around ih =>
    obtain ⟨hpart, hnests⟩ := hnests
    rw [slot] at h
    split at h
    · rename_i hstatement
      obtain ⟨hcounts, hwhole⟩ := Option.ite_none_right_eq_some.mp h
      obtain ⟨call, hparts, hkind, hspan⟩ := wholeCall?_eq_some hwhole
      obtain rfl : n = call := by simpa [hparts] using hpart
      rw [Bool.and_eq_true] at hcounts
      refine ⟨n, hkind, hspan, .inl ⟨rfl, ?_⟩⟩
      simp only [isWholeIn, hstatement, hparts, hcounts.1, Bool.and_true, Bool.true_and]
      simpa [List.countP_eq_zero] using hcounts.2
    · obtain ⟨call, hkind, hspan, hcall⟩ := ih hnests h
      refine ⟨call, hkind, hspan, .inr ?_⟩
      rcases hcall with ⟨rfl, -⟩ | ⟨hmem, hbelow⟩
      · exact ⟨List.mem_cons_self, mem_preorderAll hpart⟩
      · exact ⟨List.mem_cons_of_mem _ hmem, mem_preorderAll_of_part hpart _ hbelow⟩

/-- No call inside a call has its place. -/
def CallsApart (root : Node) : Prop :=
  ∀ call ∈ root.preorder, call.kind = .call →
    ∀ n ∈ Node.preorderAll call.parts, n.kind = .call → n.span ≠ call.span

/-- **A call has the place that is remembered exactly when it is all of its statement.** -/
theorem slot_eq_some_iff {root n : Node} {around : List Node} (hcalls : CallsApart root)
    (hmem : (around, n) ∈ located [] root) (hkind : n.kind = .call) :
    slot around = some n.span ↔ isWholeIn around = true := by
  have houtermost : Nests root [] := trivial
  obtain ⟨hnests, haround⟩ := nests_of_mem_located root houtermost hmem
  constructor
  · intro h
    obtain ⟨call, hcall, hspan, ⟨-, hwhole⟩ | ⟨hin, hbelow⟩⟩ := slot_cases hnests h
    · exact hwhole
    · -- a call around `n` is remembered, but no call in it has its place
      have hroot := (haround call hin).resolve_left (by simp)
      exact absurd hspan.symm (hcalls call hroot hcall n hbelow hkind)
  · intro h
    match around with
    | [] => cases h
    | parent :: around =>
      simp only [isWholeIn, Bool.and_eq_true, beq_iff_eq] at h
      obtain ⟨⟨⟨hstatement, hlength⟩, hstatements⟩, hscopes⟩ := h
      obtain ⟨call, hparts⟩ := List.length_eq_one_iff.mp hlength
      obtain rfl : n = call := by simpa [hparts] using hnests.1
      have hzero : (parent :: around).countP (·.kind.isScope) = 0 := by
        simpa [List.countP_eq_zero] using hscopes
      simp [slot, hstatement, hstatements, hzero, hparts, wholeCall?, hkind]

theorem idsAt_slotAdmits {root : Node} (hcalls : CallsApart root) (nested : Bool)
    {place : List Node × Node} (hmem : place ∈ located [] root) :
    idsAt (slotAdmits nested) place = idsAt (admitted nested) place := by
  unfold idsAt
  cases hcall : Call.ofNode? place.2 with
  | none => rfl
  | some call =>
    obtain ⟨hkind, hspan⟩ := call_of_ofNode? hcall
    have hslot : (slot place.1 == some call.span) = isWholeIn place.1 := by
      rw [Bool.eq_iff_iff, beq_iff_eq, hspan]
      exact slot_eq_some_iff hcalls hmem hkind
    have hadmits : slotAdmits nested place.1 call = admitted nested place.1 call := by
      unfold slotAdmits admitted
      rw [hslot]
    simp only [hadmits]

/-- **What a walk through a program finds.** It comes to its end, with nothing counted and no place
remembered. -/
theorem walk_declared {root : Node} (hcalls : CallsApart root) (nested : Bool) :
    walk nested { } root = some { found := (declared nested root).eraseDups } := by
  have hids : (located [] root).flatMap (idsAt (slotAdmits nested)) = declared nested root := by
    simp only [declared, List.flatMap]
    rw [List.map_congr_left fun place hmem => idsAt_slotAdmits hcalls nested hmem]
  rw [← hids, ← addAll_nil]
  exact walk_standing nested [] [] root

/-- In the tree of an accepted text a call ends behind the calls in it. -/
theorem callsApart_of_parse {dialect : Script.Dialect} {text : List Char} {program : Program}
    (hmarkup : dialect.markup = false) (h : Script.parse dialect text = some program) :
    CallsApart program.root := by
  obtain ⟨s, -, -, howned⟩ := Script.parse_owned hmarkup h
  intro call hcall hkind n hn hkind' hspan
  have hsettled := howned.settled call (Script.mem_landmarks hcall (by rw [hkind]; rfl))
  have hinside : n ∈ Script.landmarks call.parts := by
    simp [Script.landmarks, hn, hkind', Script.Kind.isLandmark]
  have hlt := hsettled.nested hkind n hinside hkind'
  rw [hspan] at hlt
  exact Nat.lt_irrefl _ hlt

end Dependencies

/-! ## The dependencies of a module -/

/-- **The dependencies of a module are those its tree declares, then those of its shim**, each once.
The walk that finds them ends as it started. -/
theorem Module.findDependencies_declared {m : Module} {program : Program} (hne : m.content ≠ [])
    (hmedia : MediaType.ofUrl m.specifier = .javaScript)
    (hparse : Script.parse MediaType.javaScript.dialect m.content = some program)
    (profile : Profile) :
    Dependencies.walk profile.findNestedDependencies { } program.root
        = some
          { statements := 0, scopes := 0, whole := none
            found :=
              (Dependencies.declared profile.findNestedDependencies program.root).eraseDups }
      ∧ ∀ (σ : Type) (s : σ), (m.findDependencies Service.direct profile s).value
        = .ok (Dependencies.declared profile.findNestedDependencies program.root
            ++ ((profile.shim? m.name).map (·.deps)).getD []).eraseDups := by
  have hwalk := Dependencies.walk_declared (Dependencies.callsApart_of_parse rfl hparse)
    profile.findNestedDependencies
  refine ⟨hwalk, fun σ s => ?_⟩
  have hempty : m.content.isEmpty = false := by simpa using hne
  have hsource : ParseRequest.parse ⟨m.specifier, m.content, .javaScript⟩
      = .ok ⟨m.content, .javaScript, program⟩ := by
    simp only [ParseRequest.parse, hparse]
  rw [← Dependencies.addAll_nil, Dependencies.addAll_append, Dependencies.addAll_nil]
  simp only [findDependencies, hempty, hmedia, Service.direct, Dependencies.ofTree]
  simp [Bind.bind, Pure.pure, hsource, hwalk]

/-- A script that asks for modules at its top, in a branch and in a definition. -/
def askingModule : Module where
  name := "main"
  specifier := ModuleId.fallback
  content := "require(['p!r']);if(x)require(['q']);define(['a','p'],f)".toList

theorem askingModule_accepted :
    (Script.parse MediaType.javaScript.dialect askingModule.content).isSome = true := by
  decide +kernel

theorem askingModule_declared :
    askingModule.content ≠ [] ∧ MediaType.ofUrl askingModule.specifier = .javaScript
      ∧ ∃ program, Script.parse MediaType.javaScript.dialect askingModule.content = some program
        ∧ (askingModule.findDependencies Service.direct { } ()).value
          = .ok (Dependencies.declared false program.root).eraseDups
        ∧ Dependencies.declared false program.root = ["p", "p!r", "a", "p"] := by
  have hparse := (Option.some_get askingModule_accepted).symm
  have hne : askingModule.content ≠ [] := by decide
  have hmedia : MediaType.ofUrl askingModule.specifier = .javaScript := by decide +kernel
  refine ⟨hne, hmedia, _, hparse, ?_, by decide +kernel⟩
  have hfound := (Module.findDependencies_declared hne hmedia hparse { }).2 Unit ()
  rwa [show ((Profile.shim? { } askingModule.name).map (·.deps)).getD [] = [] from rfl,
    List.append_nil] at hfound

end AmdModules
