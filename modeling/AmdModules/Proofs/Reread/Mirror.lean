import AmdModules.Proofs.Layout.Arguments
import AmdModules.Proofs.Reread.Filling

/-!
# Trees of a filled text

A tree that is read from a filled text is the tree of the text with the trees of what was put in:
behind the parenthesis of a call of `define`, and behind its id. `Filling.mirror` is that tree, with
all places forgotten, and `Alike` compares it with the one that was read.

Taking an expression as a pattern looks at kinds only, so it does the same to both trees
(`asPattern_map`).
-/

set_option autoImplicit false

namespace AmdModules.Script

open Text
open Loader (Call)

/-! ## Putting trees in -/

/-- Where something may be put in behind an id: behind its comma, or right behind the id if no other
argument follows. -/
def idPlace (text : List Char) (id : Node) (others : List Node) : Nat :=
  if others.isEmpty then id.span.stop else behindToken text id.span.stop

namespace Filling

variable {text : List Char} (f : Filling text)

/-- Arguments of a call with what is put in behind the id. -/
def growArguments : List Node → List Node → List Node
  | id :: others, id' :: others' =>
    if Loader.isString id then id' :: (f.nodes (idPlace text id others) ++ others')
    else id' :: others'
  | _, others' => others'

/-- Parts of a node with what is put in if the node is a call of `define`. -/
def grow (n : Node) (parts : List Node) : List Node :=
  match Call.definition? n, parts with
  | some call, callee :: others =>
    callee :: (f.nodes (behindToken text call.callee.stop) ++ f.growArguments call.arguments others)
  | _, _ => parts

mutual

/-- A tree of the text as it is read from the filled text, without its places. -/
def mirror : Node → Node
  | .mk kind span parts => .mk kind ⟨0, 0⟩ (f.grow (.mk kind span parts) (mirrorAll parts))

/-- Trees of the text as they are read from the filled text. -/
def mirrorAll : List Node → List Node
  | [] => []
  | n :: ns => mirror n :: mirrorAll ns

end

end Filling

/-! ## Changing trees below their kinds -/

/-- A change of trees that keeps all kinds, and all parts but those of calls. -/
structure Reshapes (change : Node → Node) : Prop where
  exists_mk : ∀ (kind : Kind) (span : Span) (parts : List Node), ∃ parts',
    change (.mk kind span parts) = .mk kind ⟨0, 0⟩ parts'
      ∧ (kind ≠ .call → parts' = parts.map change)

theorem Node.plainAll_eq_map (ns : List Node) : Node.plainAll ns = ns.map Node.plain := by
  induction ns with
  | nil => rfl
  | cons n ns ih => simp [Node.plainAll, ih]

theorem Node.plain_mk (kind : Kind) (span : Span) (parts : List Node) :
    (Node.mk kind span parts).plain = .mk kind ⟨0, 0⟩ (parts.map Node.plain) := by
  rw [Node.plain, Node.plainAll_eq_map]

theorem reshapes_plain : Reshapes Node.plain :=
  ⟨fun kind span parts => ⟨_, Node.plain_mk kind span parts, fun _ => rfl⟩⟩

namespace Filling

variable {text : List Char} {f : Filling text}

theorem mirrorAll_eq_map (ns : List Node) : f.mirrorAll ns = ns.map f.mirror := by
  induction ns with
  | nil => rfl
  | cons n ns ih => simp [mirrorAll, ih]

theorem mirror_mk (kind : Kind) (span : Span) (parts : List Node) :
    f.mirror (.mk kind span parts)
      = .mk kind ⟨0, 0⟩ (f.grow (.mk kind span parts) (parts.map f.mirror)) := by
  rw [mirror, mirrorAll_eq_map]

theorem definition?_eq_none {kind : Kind} (h : kind ≠ .call) (span : Span) (parts : List Node) :
    Call.definition? (.mk kind span parts) = none := by
  have hnone : Call.ofNode? (.mk kind span parts) = none := by
    unfold Call.ofNode?
    split
    · rename_i heq
      cases heq
      exact absurd rfl h
    · rfl
  rw [Call.definition?, hnone]
  rfl

theorem reshapes_mirror : Reshapes f.mirror := by
  refine ⟨fun kind span parts => ⟨_, mirror_mk kind span parts, fun h => ?_⟩⟩
  simp only [grow, definition?_eq_none h]

theorem growArguments_plain (arguments parts : List Node) :
    (f.growArguments arguments parts).map Node.plain
      = f.growArguments arguments (parts.map Node.plain) := by
  cases arguments <;> cases parts <;> simp only [growArguments, List.map_cons, List.map_nil]
  split <;> simp [f.nodes_plain]

theorem grow_plain (n : Node) (parts : List Node) :
    (f.grow n parts).map Node.plain = f.grow n (parts.map Node.plain) := by
  unfold grow
  cases Call.definition? n <;> cases parts <;>
    simp [f.nodes_plain, growArguments_plain]

mutual

/-- The tree that is compared with has no places of its own. -/
theorem plain_mirror (n : Node) : (f.mirror n).plain = f.mirror n := by
  match n with
  | .mk kind span parts =>
    rw [mirror, Node.plain_mk, grow_plain, plain_mirrorAll parts]

theorem plain_mirrorAll (ns : List Node) : (f.mirrorAll ns).map Node.plain = f.mirrorAll ns := by
  match ns with
  | [] => rfl
  | n :: ns => rw [mirrorAll, List.map_cons, plain_mirror n, plain_mirrorAll ns]

end

end Filling

/-! ## Patterns -/

section

variable {change : Node → Node}

theorem Reshapes.invalid (hchange : Reshapes change) (span : Span) :
    change (.mk .invalid span []) = .mk .invalid ⟨0, 0⟩ [] := by
  obtain ⟨parts', hmk, hparts⟩ := hchange.exists_mk .invalid span []
  rw [hmk, hparts (by decide), List.map_nil]

theorem Reshapes.node (hchange : Reshapes change) {kind : Kind} (hkind : kind ≠ .call) (span : Span)
    (parts : List Node) :
    change (.mk kind span parts) = .mk kind ⟨0, 0⟩ (parts.map change) := by
  obtain ⟨parts', hmk, hparts⟩ := hchange.exists_mk kind span parts
  rw [hmk, hparts hkind]

mutual

theorem asPattern_map (hchange : Reshapes change) (target : Target) (n : Node) :
    asPattern target (change n) = (asPattern target n).map change := by
  match n with
  | .mk kind span parts =>
    obtain ⟨parts', hmk, hparts⟩ := hchange.exists_mk kind span parts
    have hself := hmk
    rw [hmk]
    unfold asPattern
    split
    · simp [hself]
    · rw [hparts (by decide), elementsAsPatterns_map hchange]
      cases elementsAsPatterns target.part parts <;> simp [hchange.node]
    · rw [hparts (by decide), propertiesAsPatterns_map hchange]
      cases propertiesAsPatterns target.part parts <;> simp [hchange.node]
    · simp [hself]
    · simp [hself]
    · simp [hself]
    · split
      · simp [hself]
      · rw [hparts (by decide), firstAsPattern_map hchange]
        cases firstAsPattern target parts <;> simp [hchange.node]
    · split
      · simp [hself]
      · split <;> simp [hself, hchange.invalid]
      · split <;> simp [hself, hchange.invalid]

theorem firstAsPattern_map (hchange : Reshapes change) (target : Target) (ns : List Node) :
    firstAsPattern target (ns.map change) = (firstAsPattern target ns).map (·.map change) := by
  match ns with
  | [] => rfl
  | n :: ns =>
    have hn := asPattern_map hchange target n
    simp only [List.map_cons, firstAsPattern, hn]
    cases asPattern target n <;> rfl

theorem elementsAsPatterns_map (hchange : Reshapes change) (target : Target) (ns : List Node) :
    elementsAsPatterns target (ns.map change)
      = (elementsAsPatterns target ns).map (·.map change) := by
  match ns with
  | [] => rfl
  | .mk kind span parts :: ns =>
    obtain ⟨parts', hmk, hparts⟩ := hchange.exists_mk kind span parts
    have hself := hmk
    have hns := elementsAsPatterns_map hchange target ns
    have hn := asPattern_map hchange target (.mk kind span parts)
    rw [List.map_cons, hmk]
    unfold elementsAsPatterns
    split
    · rw [hparts (by decide), firstAsPattern_map hchange, List.isEmpty_map, hns]
      split
      · cases firstAsPattern target parts <;> simp [hchange.node]
      · rfl
    · rw [hns]
      cases elementsAsPatterns target ns <;> simp [hself]
    · rw [← hmk, hn, hns]
      cases asPattern target (.mk kind span parts) <;> cases elementsAsPatterns target ns <;> rfl

theorem propertiesAsPatterns_map (hchange : Reshapes change) (target : Target) (ns : List Node) :
    propertiesAsPatterns target (ns.map change)
      = (propertiesAsPatterns target ns).map (·.map change) := by
  match ns with
  | [] => rfl
  | .mk kind span parts :: ns =>
    obtain ⟨parts', hmk, hparts⟩ := hchange.exists_mk kind span parts
    have hself := hmk
    have hns := propertiesAsPatterns_map hchange target ns
    rw [List.map_cons, hmk]
    unfold propertiesAsPatterns
    split
    · rw [hns]
      cases propertiesAsPatterns target ns <;> simp [hself]
    · rw [hns]
      cases propertiesAsPatterns target ns <;> simp [hself]
    · rw [hparts (by decide), valueAsPattern_map hchange, hns]
      cases valueAsPattern target parts <;> cases propertiesAsPatterns target ns <;>
        simp [hchange.node]
    · rw [hparts (by decide), restAsPattern_map hchange, hns]
      cases restAsPattern target parts <;> cases propertiesAsPatterns target ns <;>
        simp [hchange.node]
    · rfl

theorem restAsPattern_map (hchange : Reshapes change) (target : Target) (ns : List Node) :
    restAsPattern target (ns.map change) = (restAsPattern target ns).map (·.map change) := by
  match ns with
  | [] => rfl
  | .mk kind span parts :: ns =>
    obtain ⟨parts', hmk, hparts⟩ := hchange.exists_mk kind span parts
    have hself := hmk
    have hn := asPattern_map hchange target (.mk kind span parts)
    rw [List.map_cons, hmk]
    unfold restAsPattern
    split
    · simp [hself]
    · simp [hchange.invalid]
    · rw [← hmk, hn]
      cases asPattern target (.mk kind span parts) <;> rfl

theorem valueAsPattern_map (hchange : Reshapes change) (target : Target) (ns : List Node) :
    valueAsPattern target (ns.map change) = (valueAsPattern target ns).map (·.map change) := by
  match ns with
  | [] => rfl
  | key :: ns =>
    have hns := firstAsPattern_map hchange target ns
    simp only [List.map_cons, valueAsPattern, hns]
    cases firstAsPattern target ns <;> rfl

end

end

/-! ## Comparing trees -/

namespace Filling

variable {text : List Char} (f : Filling text)

/-- The second tree is the first one as it is read from the filled text. -/
def Alike (n n' : Node) : Prop :=
  n'.plain = f.mirror n

/-- The second trees are the first ones as they are read from the filled text. -/
def AlikeAll (ns ns' : List Node) : Prop :=
  ns'.map Node.plain = ns.map f.mirror

variable {f} {n n' : Node} {ns ns' ms ms' : List Node}

/-- Every tree is read again as some tree. -/
theorem Alike.mirror (n : Node) : f.Alike n (f.mirror n) :=
  plain_mirror n

theorem Alike.kind (h : f.Alike n n') : n'.kind = n.kind := by
  have hkind := congrArg Node.kind h
  cases n
  cases n'
  exact hkind

theorem AlikeAll.nil : f.AlikeAll [] [] := rfl

theorem AlikeAll.cons (h : f.Alike n n') (hs : f.AlikeAll ns ns') :
    f.AlikeAll (n :: ns) (n' :: ns') := by
  rw [AlikeAll, List.map_cons, List.map_cons, h, hs]

theorem AlikeAll.append (h : f.AlikeAll ns ns') (h' : f.AlikeAll ms ms') :
    f.AlikeAll (ns ++ ms) (ns' ++ ms') := by
  rw [AlikeAll, List.map_append, List.map_append, h, h']

theorem AlikeAll.mirror (ns : List Node) : f.AlikeAll ns (f.mirrorAll ns) := by
  rw [AlikeAll, plain_mirrorAll, mirrorAll_eq_map]

theorem AlikeAll.singleton (h : f.Alike n n') : f.AlikeAll [n] [n'] :=
  .cons h .nil

theorem AlikeAll.of_cons (h : f.AlikeAll (n :: ns) ms') :
    ∃ n' ns', ms' = n' :: ns' ∧ f.Alike n n' ∧ f.AlikeAll ns ns' := by
  cases ms' with
  | nil => cases h
  | cons n' ns' =>
    rw [AlikeAll, List.map_cons, List.map_cons, List.cons.injEq] at h
    exact ⟨n', ns', rfl, h⟩

theorem AlikeAll.of_nil (h : f.AlikeAll [] ns') : ns' = [] :=
  List.map_eq_nil_iff.mp h

theorem AlikeAll.isEmpty_eq (h : f.AlikeAll ns ns') : ns'.isEmpty = ns.isEmpty := by
  cases ns with
  | nil => rw [h.of_nil]
  | cons n ns =>
    obtain ⟨n', ns', rfl, -⟩ := h.of_cons
    rfl

theorem AlikeAll.take (h : f.AlikeAll ns ns') (count : Nat) :
    f.AlikeAll (ns.take count) (ns'.take count) := by
  rw [AlikeAll, List.map_take, List.map_take, h]

/-- Whatever looks at kinds only finds the same in alike trees. -/
theorem AlikeAll.any_kind (h : f.AlikeAll ns ns') (p : Kind → Bool) :
    (ns'.any fun n => p n.kind) = ns.any fun n => p n.kind := by
  induction ns generalizing ns' with
  | nil => rw [h.of_nil]
  | cons n ns ih =>
    obtain ⟨n', ns', rfl, hn, hns⟩ := h.of_cons
    rw [List.any_cons, List.any_cons, hn.kind, ih hns]

/-- Alike parts make alike nodes, calls apart. -/
theorem Alike.mk {kind : Kind} (hkind : kind ≠ .call) (span span' : Span)
    (h : f.AlikeAll ns ns') : f.Alike (.mk kind span ns) (.mk kind span' ns') := by
  rw [Alike, reshapes_plain.node hkind, reshapes_mirror.node hkind, h]

theorem Alike.parts (h : f.Alike n n') (hkind : n.kind ≠ .call) : f.AlikeAll n.parts n'.parts := by
  obtain ⟨kind, span, parts⟩ := n
  obtain ⟨kind', span', parts'⟩ := n'
  obtain rfl : kind' = kind := h.kind
  simp only [Node.kind] at hkind
  rw [Alike, reshapes_plain.node hkind, reshapes_mirror.node hkind] at h
  exact (Node.mk.inj h).2.2

/-! ## Patterns of alike trees -/

theorem Alike.asPattern (h : f.Alike n n') (target : Target) :
    Option.Rel f.Alike (asPattern target n) (asPattern target n') := by
  have hmap : (Script.asPattern target n').map Node.plain
      = (Script.asPattern target n).map f.mirror := by
    rw [← asPattern_map reshapes_plain, ← asPattern_map reshapes_mirror, h]
  cases hn : Script.asPattern target n <;> cases hn' : Script.asPattern target n' <;>
    rw [hn, hn'] at hmap
  · exact .none
  · cases hmap
  · cases hmap
  · exact .some (Option.some.inj hmap)

theorem AlikeAll.asParameters (h : f.AlikeAll ns ns') :
    Option.Rel f.AlikeAll (asParameters ns) (asParameters ns') := by
  have hmap : (Script.asParameters ns').map (·.map Node.plain)
      = (Script.asParameters ns).map (·.map f.mirror) := by
    simp only [Script.asParameters]
    rw [← elementsAsPatterns_map reshapes_plain, ← elementsAsPatterns_map reshapes_mirror, h]
  cases hn : Script.asParameters ns <;> cases hn' : Script.asParameters ns' <;>
    rw [hn, hn'] at hmap
  · exact .none
  · cases hmap
  · cases hmap
  · exact .some (Option.some.inj hmap)

end Filling

end AmdModules.Script
