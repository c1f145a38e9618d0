import AmdModules.Normalize.Edits
import AmdModules.Proofs.Layout.State
import AmdModules.Proofs.Text.Edits
import Mathlib.Data.List.Flatten
import Mathlib.Data.List.Perm.Subperm

/-!
# Landmarks and the places they ask for

Of a syntax tree only calls and expression statements matter for the edits of a text; they are its
landmarks. A landmark asks for places: a `use strict` statement for the stretch it covers, a call of
`define` for the place behind its parenthesis and, when it starts with an id, for the place behind
the id or behind the comma that ends it.

`Owned` is the invariant of the parser about the trees it holds at some moment: their landmarks are
where the tree says they are, and the places they ask for lie between the place where the first of
the trees started and the end of the last token read, each apart from the others. It speaks about
all trees together and does not depend on their order, so it survives whatever the grammar does with
them. `Within` compares lists of trees by how often each landmark occurs in them.
-/

set_option autoImplicit false

namespace AmdModules.Script

open Text
open Loader (Call)
open Normalize (isUseStrict)

/-- Calls and expression statements. -/
def Kind.isLandmark : Kind → Bool
  | .call | .expressionStatement => true
  | _ => false

/-- The landmarks of some trees. -/
def landmarks (ns : List Node) : List Node :=
  (Node.preorderAll ns).filter (·.kind.isLandmark)

theorem Node.preorderAll_append (ns ms : List Node) :
    preorderAll (ns ++ ms) = preorderAll ns ++ preorderAll ms := by
  induction ns with
  | nil => simp [preorderAll]
  | cons n ns ih => simp [preorderAll, ih]

@[simp] theorem landmarks_nil : landmarks [] = [] := rfl

theorem landmarks_append (ns ms : List Node) :
    landmarks (ns ++ ms) = landmarks ns ++ landmarks ms := by
  simp [landmarks, Node.preorderAll_append]

theorem landmarks_mk (kind : Kind) (span : Span) (parts ns : List Node) :
    landmarks (.mk kind span parts :: ns)
      = (if kind.isLandmark then [.mk kind span parts] else []) ++ landmarks parts
        ++ landmarks ns := by
  unfold landmarks
  rw [Node.preorderAll, Node.preorder]
  by_cases hkind : kind.isLandmark = true
  · simp [Node.kind, hkind]
  · simp [Node.kind, hkind]

theorem mem_landmarks {root n : Node} (h : n ∈ root.preorder) (hkind : n.kind.isLandmark = true) :
    n ∈ landmarks [root] := by
  simpa [landmarks, Node.preorderAll, hkind] using h

/-! ## Trees with the same landmarks -/

open Classical in
/-- How often the landmark `x` occurs in a tree. -/
noncomputable def Node.occurrences (n x : Node) : Nat :=
  (landmarks [n]).count x

open Classical in
/-- How often the landmark `x` occurs in some trees. -/
noncomputable def occurrences (ns : List Node) (x : Node) : Nat :=
  (landmarks ns).count x

@[simp, grind =] theorem occurrences_nil (x : Node) : occurrences [] x = 0 := rfl

@[simp, grind =] theorem occurrences_append (ns ms : List Node) (x : Node) :
    occurrences (ns ++ ms) x = occurrences ns x + occurrences ms x := by
  simp [occurrences, landmarks_append]

@[simp, grind =] theorem occurrences_cons (n : Node) (ns : List Node) (x : Node) :
    occurrences (n :: ns) x = n.occurrences x + occurrences ns x := by
  rw [← List.singleton_append, occurrences_append]
  rfl

theorem occurrences_mk {kind : Kind} (h : kind.isLandmark = false) (span : Span)
    (parts : List Node) (x : Node) :
    (Node.mk kind span parts).occurrences x = occurrences parts x := by
  simp [Node.occurrences, occurrences, landmarks_mk, h]

/-- Each landmark occurs at most as often in the first trees as in the second. -/
@[grind =] def Within (ns ms : List Node) : Prop :=
  ∀ x, occurrences ns x ≤ occurrences ms x

theorem Within.refl (ns : List Node) : Within ns ns :=
  fun _ => Nat.le_refl _

theorem Within.nil (ns : List Node) : Within [] ns :=
  fun _ => Nat.zero_le _

theorem Within.trans {ns ms ls : List Node} (h : Within ns ms) (h' : Within ms ls) :
    Within ns ls :=
  fun x => Nat.le_trans (h x) (h' x)

theorem Within.append {ns ms ns' ms' : List Node} (h : Within ns ms) (h' : Within ns' ms') :
    Within (ns ++ ns') (ms ++ ms') := by
  intro x
  have := h x
  have := h' x
  simp only [occurrences_append]
  omega

theorem Within.cons {n m : Node} {ns ms : List Node} (h : Within [n] [m]) (h' : Within ns ms) :
    Within (n :: ns) (m :: ms) :=
  Within.append h h'

theorem Within.subperm {ns ms : List Node} (h : Within ns ms) :
    (landmarks ns).Subperm (landmarks ms) := by
  classical
  rw [List.subperm_ext_iff]
  intro x _
  simpa [occurrences] using h x

theorem Within.mk {kind : Kind} (h : kind.isLandmark = false) {span : Span}
    {parts ns ms : List Node} (hparts : Within (parts ++ ns) ms) :
    Within (.mk kind span parts :: ns) ms := by
  intro x
  have := hparts x
  rw [occurrences_append] at this
  rw [occurrences_cons, occurrences_mk h]
  exact this

/-! ## Places -/

/-- The first token from byte `offset` on, if that is a place in the text. -/
def tokenFrom? (text : List Char) (offset : Nat) : Option Token :=
  (Text.splitAt? offset text).map fun (_, after) => (readToken false [] offset after).token

/-- The end of the first token from byte `offset` on. -/
def behindToken (text : List Char) (offset : Nat) : Nat :=
  match tokenFrom? text offset with
  | some t => t.span.stop
  | none => offset

theorem Passed.tokenFrom?_eq {text : List Char} {s : State} {offset stop : Nat} {m : String}
    (h : Passed text s offset m stop) :
    ∃ t, tokenFrom? text offset = some t ∧ t.kind = .mark m ∧ t.span.stop = stop := by
  obtain ⟨cs, -, -, hcs, hkind, hstop, -⟩ := h
  obtain ⟨before, hsplit⟩ := hcs.splitAt?
  exact ⟨_, by rw [tokenFrom?, hsplit]; rfl, hkind, hstop⟩

theorem Passed.behindToken_eq {text : List Char} {s : State} {offset stop : Nat} {m : String}
    (h : Passed text s offset m stop) : behindToken text offset = stop := by
  obtain ⟨t, ht, -, hstop⟩ := h.tokenFrom?_eq
  rw [behindToken, ht]
  exact hstop

/-- The places at which something may be put into a call. -/
def callPlaces (text : List Char) (call : Call) : List Nat :=
  behindToken text call.callee.stop ::
    match call.arguments with
    | [] => []
    | [id] => if Loader.isString id then [id.span.stop] else []
    | id :: _ :: _ => if Loader.isString id then [behindToken text id.span.stop] else []

/-- The stretches of text a landmark asks for. -/
def places (text : List Char) (n : Node) : List Span :=
  if isUseStrict n then [n.span]
  else
    match Call.definition? n with
    | some call => (callPlaces text call).map fun place => ⟨place, place⟩
    | none => []

/-- Stretches between two places, each apart from the others. -/
structure Spaced (lo hi : Nat) (spans : List Span) : Prop where
  bounds : ∀ x ∈ spans, lo ≤ x.start ∧ x.start ≤ x.stop ∧ x.stop ≤ hi
  apart : spans.Pairwise Span.Apart

namespace Spaced

variable {lo hi : Nat} {spans : List Span}

theorem nil (lo hi : Nat) : Spaced lo hi [] :=
  ⟨by simp, .nil⟩

theorem mono {lo' hi' : Nat} (h : Spaced lo hi spans) (hlo : lo' ≤ lo) (hhi : hi ≤ hi') :
    Spaced lo' hi' spans :=
  ⟨fun x hx => by have := h.bounds x hx; omega, h.apart⟩

theorem subperm {spans' : List Span} (h : Spaced lo hi spans) (hsub : spans'.Subperm spans) :
    Spaced lo hi spans' := by
  refine ⟨fun x hx => h.bounds x (hsub.subset hx), ?_⟩
  obtain ⟨spans'', hperm, hsublist⟩ := hsub
  exact (hperm.pairwise_iff fun h => Span.Apart.symm h).mp (h.apart.sublist hsublist)

theorem comm {spans' : List Span} (h : Spaced lo hi (spans ++ spans')) :
    Spaced lo hi (spans' ++ spans) :=
  h.subperm List.perm_append_comm.subperm

/-- What lies on two sides of a place is apart. -/
theorem append {mid mid' : Nat} {later : List Span} (h : Spaced lo mid spans)
    (h' : Spaced mid' hi later) (hlo : lo ≤ mid') (hmid : mid ≤ mid') (hhi : mid ≤ hi) :
    Spaced lo hi (spans ++ later) := by
  refine ⟨fun x hx => ?_, List.pairwise_append.mpr ⟨h.apart, h'.apart, fun x hx y hy => ?_⟩⟩
  · rcases List.mem_append.mp hx with hx | hx
    · have := h.bounds x hx
      omega
    · have := h'.bounds x hx
      omega
  · have hx := h.bounds x hx
    have hy := h'.bounds y hy
    exact .inl (by omega)

theorem singleton {x : Span} (hlo : lo ≤ x.start) (hle : x.start ≤ x.stop) (hhi : x.stop ≤ hi) :
    Spaced lo hi [x] :=
  ⟨by simp [hlo, hle, hhi], List.pairwise_singleton _ _⟩

/-- One more place behind all others. -/
theorem point {place : Nat} (h : Spaced lo hi spans) (hlo : lo ≤ place) (hle : hi ≤ place) :
    Spaced lo place (spans ++ [⟨place, place⟩]) :=
  h.append (singleton (Nat.le_refl _) (Nat.le_refl _) (Nat.le_refl _)) hlo hle hle

end Spaced

/-- The places a node asks for as a call of `define`. -/
def spots (text : List Char) (n : Node) : List Nat :=
  match Call.definition? n with
  | some call => callPlaces text call
  | none => []

/-- The places that different calls ask for are different, and lie behind one place and up to
another. -/
structure Spread (lo hi : Nat) (groups : List (List Nat)) : Prop where
  bounds : ∀ group ∈ groups, ∀ x ∈ group, lo < x ∧ x ≤ hi
  disjoint : groups.Pairwise List.Disjoint

namespace Spread

variable {lo hi : Nat} {groups : List (List Nat)}

theorem nil (lo hi : Nat) : Spread lo hi [] :=
  ⟨by simp, .nil⟩

theorem mono {lo' hi' : Nat} (h : Spread lo hi groups) (hlo : lo' ≤ lo) (hhi : hi ≤ hi') :
    Spread lo' hi' groups :=
  ⟨fun group hgroup x hx => by have := h.bounds group hgroup x hx; omega, h.disjoint⟩

theorem subperm {groups' : List (List Nat)} (h : Spread lo hi groups)
    (hsub : groups'.Subperm groups) : Spread lo hi groups' := by
  refine ⟨fun group hgroup => h.bounds group (hsub.subset hgroup), ?_⟩
  obtain ⟨groups'', hperm, hsublist⟩ := hsub
  exact (hperm.pairwise_iff fun h => List.disjoint_symm h).mp (h.disjoint.sublist hsublist)

theorem append {mid mid' : Nat} {later : List (List Nat)} (h : Spread lo mid groups)
    (h' : Spread mid' hi later) (hlo : lo ≤ mid') (hmid : mid ≤ mid') (hhi : mid ≤ hi) :
    Spread lo hi (groups ++ later) := by
  refine ⟨fun group hgroup x hx => ?_, List.pairwise_append.mpr
    ⟨h.disjoint, h'.disjoint, fun group hgroup group' hgroup' x hx hx' => ?_⟩⟩
  · rcases List.mem_append.mp hgroup with hgroup | hgroup
    · have := h.bounds group hgroup x hx
      omega
    · have := h'.bounds group hgroup x hx
      omega
  · have := h.bounds group hgroup x hx
    have := h'.bounds group' hgroup' x hx'
    omega

/-- One more group, in front of all places of the others or behind them. -/
theorem cons {group : List Nat} (h : Spread lo hi groups) (hgroup : ∀ x ∈ group, lo < x ∧ x ≤ hi)
    (hnew : ∀ x ∈ group, ∀ group' ∈ groups, x ∉ group') : Spread lo hi (group :: groups) := by
  refine ⟨fun group' hmem => ?_,
    List.pairwise_cons.mpr ⟨fun group' hmem x hx hx' => ?_, h.disjoint⟩⟩
  · rcases List.mem_cons.mp hmem with rfl | hmem
    · exact hgroup
    · exact h.bounds group' hmem
  · exact hnew x hx group' hmem hx'

end Spread

/-! ## Landmarks stand where the tree says -/

/-- The parenthesis of a call of `define` follows its name, and the comma that ends its id follows
the id. -/
structure Seated (text : List Char) (s : State) (call : Call) : Prop where
  opening : ∃ stop, Passed text s call.callee.stop "(" stop ∧ stop ≤ call.span.stop
  comma : ∀ id next others, call.arguments = id :: next :: others → Loader.isString id = true →
    ∃ stop, Passed text s id.span.stop "," stop ∧ stop ≤ next.span.start
      ∧ next.span.start ≤ byteLength text
  sole : ∀ id, call.arguments = [id] → Loader.isString id = true → id.span.stop ≤ call.span.stop
  inside : ∀ id others, call.arguments = id :: others → Loader.isString id = true →
    behindToken text call.callee.stop ≤ id.span.stop

/-- A landmark that is where the tree says it is. Calls inside a call end before it does. -/
structure Settled (text : List Char) (s : State) (n : Node) : Prop where
  stop_le : n.kind = .call → n.span.stop ≤ s.lastEnd
  nested : n.kind = .call → ∀ m ∈ landmarks n.parts, m.kind = .call → m.span.stop < n.span.stop
  seated : ∀ call, Call.definition? n = some call → Seated text s call

theorem Seated.reaches {text : List Char} {s s' : State} {call : Call} (h : Seated text s call)
    (hreach : Reaches text s s') : Seated text s' call := by
  refine ⟨?_, fun id next others hargs hid => ?_, h.sole, h.inside⟩
  · obtain ⟨stop, hpassed, hle⟩ := h.opening
    exact ⟨stop, hpassed.reaches hreach, hle⟩
  · obtain ⟨stop, hpassed, hle⟩ := h.comma id next others hargs hid
    exact ⟨stop, hpassed.reaches hreach, hle⟩

theorem Settled.reaches {text : List Char} {s s' : State} {n : Node} (h : Settled text s n)
    (hreach : Reaches text s s') : Settled text s' n :=
  ⟨fun hcall => Nat.le_trans (h.stop_le hcall) hreach.le, h.nested,
    fun call hcall => (h.seated call hcall).reaches hreach⟩

/-- The trees the parser holds: their landmarks are settled and ask for places that lie apart. -/
structure Owned (text : List Char) (lo : Nat) (s : State) (ns : List Node) : Prop where
  le : lo ≤ s.reading.token.span.start
  settled : ∀ n ∈ landmarks ns, Settled text s n
  spaced : Spaced lo s.lastEnd ((landmarks ns).flatMap (places text))
  spread : Spread lo s.lastEnd ((landmarks ns).map (spots text))

namespace Owned

variable {text : List Char} {lo : Nat} {s s' : State} {ns ms : List Node}

theorem nil (h : lo ≤ s.reading.token.span.start) : Owned text lo s [] :=
  ⟨h, by simp, .nil _ _, .nil _ _⟩

/-- Trees may be dropped, and put in another order. -/
theorem within (h : Owned text lo s ms) (hsub : Within ns ms) : Owned text lo s ns := by
  have hperm := hsub.subperm
  obtain ⟨ls, hls, hsublist⟩ := id hperm
  exact ⟨h.le, fun n hn => h.settled n (hperm.subset hn),
    h.spaced.subperm ⟨_, hls.flatMap_right _, hsublist.flatMap _⟩,
    h.spread.subperm ⟨_, hls.map _, hsublist.map _⟩⟩

theorem reaches (h : Owned text lo s ns) (hreach : Reaches text s s') : Owned text lo s' ns :=
  ⟨Nat.le_trans h.le hreach.start_le, fun n hn => (h.settled n hn).reaches hreach,
    h.spaced.mono (Nat.le_refl _) hreach.le, h.spread.mono (Nat.le_refl _) hreach.le⟩

/-- What is read from a state on is apart from what was held there. -/
theorem frame (h : Owned text lo s ns) (hs : s.On text) (hreach : Reaches text s s')
    (h' : Owned text s.reading.token.span.start s' ms) : Owned text lo s' (ms ++ ns) := by
  refine ⟨Nat.le_trans h.le h'.le, fun n hn => ?_, ?_, ?_⟩
  · rw [landmarks_append] at hn
    rcases List.mem_append.mp hn with hn | hn
    · exact h'.settled n hn
    · exact (h.settled n hn).reaches hreach
  · rw [landmarks_append, List.flatMap_append]
    exact (h.spaced.append h'.spaced h.le hs.lastEnd_le hreach.le).comm
  · rw [landmarks_append, List.map_append]
    exact (h.spread.append h'.spread h.le hs.lastEnd_le hreach.le).subperm
      List.perm_append_comm.subperm

theorem mono {lo' : Nat} (h : Owned text lo s ns) (hle : lo' ≤ lo) : Owned text lo' s ns :=
  ⟨Nat.le_trans hle h.le, h.settled, h.spaced.mono hle (Nat.le_refl _),
    h.spread.mono hle (Nat.le_refl _)⟩

end Owned

end AmdModules.Script
