import AmdModules.Proofs.Layout.Program
import AmdModules.Proofs.Loader.Repair
import AmdModules.Proofs.Normalize.Search
import AmdModules.Proofs.Text.Positions

/-!
# What normalizing changes

`differences` says in terms of the tree what becomes of a text: which statements go, what each call
of `define` gets and behind which token, and what is appended. It knows no search and no detour over
lines and columns.

The edits of a node rest on a few stretches of the text (`stretches`). Where no offset drifts in
them the recorded edits are the differences: the search finds the token the parser saw, since the
parser passed nothing but blanks and comments on its way there (`Passed.findOutside_eq`). They lie
in the text and apart, because the tree is laid out in the text (`Script.parse_owned`). In an ASCII
text nothing drifts at all (`edits_eq`, `differences_fit`, `undrifted_of_isAscii`).
-/

set_option autoImplicit false

namespace AmdModules

open Text

/-! ## Finding a mark again -/

namespace Script

variable {text : List Char} {s : State}

/-- The comments of a parser that has passed a mark, once drifted: those on the way to the mark are
where they were, the others keep to their side of the way. -/
theorem Passed.drifted_comments {offset stop : Nat} {m : String} (h : Passed text s offset m stop)
    (hsteady : Span.Steady text ⟨offset, stop⟩) :
    ∃ cs, From text offset cs
      ∧ (readToken false [] offset cs).token.kind = .mark m
      ∧ (readToken false [] offset cs).token.span.stop = stop
      ∧ (∀ k ∈ (readToken false [] offset cs).comments,
        k ∈ s.reading.comments.reverse.map (·.throughPosition text)
          ∧ ∃ rest, From text k.stop rest)
      ∧ ∀ k ∈ s.reading.comments.reverse.map (·.throughPosition text),
        stop ≤ k.start ∨ k ∈ (readToken false [] offset cs).comments ∨ k.stop ≤ offset := by
  obtain ⟨cs, later, earlier, hcs, hkind, hstop, -, hcomments, hlater, hearlier⟩ := h
  have hcuts := readToken_cuts false [] offset cs
  have hle := Nat.le_trans hcuts.le_start hcuts.start_le
  have hbelow := hcuts.here_le
  rw [hstop] at hbelow
  -- the ends of a comment on the way do not drift
  have hway : ∀ k ∈ (readToken false [] offset cs).comments,
      throughPosition text k.start = k.start ∧ throughPosition text k.stop = k.stop := by
    intro k hk
    have hbounds := readToken_comments hk
    have hends := start_le_stop_of_mem_readToken (List.forall_mem_nil _) k hk
    constructor
    · exact hsteady k.start hbounds.1 (by simp only; omega)
    · exact hsteady k.stop (by simp only; omega) (by simp only; omega)
  refine ⟨cs, hcs, hkind, hstop, fun k hk => ⟨List.mem_map.mpr ⟨k, ?_, ?_⟩, ?_⟩, fun k' hk' => ?_⟩
  · rw [List.mem_reverse, hcomments, List.mem_append, List.mem_append]
    exact .inl (.inr hk)
  · rw [Span.throughPosition, (hway k hk).1, (hway k hk).2]
  · exact exists_from_of_throughPosition_eq (hway k hk).2
  · obtain ⟨k, hk, rfl⟩ := List.mem_map.mp hk'
    rw [List.mem_reverse, hcomments, List.mem_append, List.mem_append, or_assoc] at hk
    rcases hk with hk | hk | hk
    · refine .inl (Nat.le_trans (Nat.le_of_eq ?_) (throughPosition_mono text (hlater k hk)))
      exact (hsteady stop (by simp only; omega) (Nat.le_refl _)).symm
    · rw [Span.throughPosition, (hway k hk).1, (hway k hk).2]
      exact .inr (.inl hk)
    · refine .inr (.inr (Nat.le_trans (throughPosition_mono text (hearlier k hk)) ?_))
      exact Nat.le_of_eq (hsteady offset (Nat.le_refl _) (by simp only; omega))

/-- **The search finds the mark the parser passed** if nothing drifts on the way there. What stands
in front of the mark is blank or in a comment of the parser, and the mark itself is in none. The
comments on other lines may have drifted, but keep to their side. -/
theorem Passed.findOutside_eq {offset stop limit : Nat} {m : String} {c : Char}
    (h : Passed text s offset m stop) (hm : m.toList = [c])
    (hblank : isSpace c = false ∧ isLineEnd c = false)
    (hsteady : Span.Steady text ⟨offset, stop⟩) (hlimit : stop ≤ limit)
    (hend : ∃ cs, From text limit cs) :
    Normalize.findOutside text (s.reading.comments.reverse.map (·.throughPosition text))
      offset limit c = some (stop - c.utf8Size) := by
  obtain ⟨cs, hcs, hkind, hstop, hway, hsides⟩ := h.drifted_comments hsteady
  have hcuts := readToken_cuts false [] offset cs
  obtain ⟨hspelled, hlength⟩ := readToken_mark hkind
  have hle := Nat.le_trans hcuts.le_start hcuts.start_le
  have hpos := c.utf8Size_pos
  rw [hm, byteLength_cons, byteLength_nil, hstop] at hlength
  have hplace : stop - c.utf8Size = (readToken false [] offset cs).hereOffset := by omega
  rw [hplace]
  have hhere := hcuts.from_here hcs
  rw [hspelled, hm] at hhere
  refine Normalize.findOutside_eq_some ⟨cs, hcs⟩ hend ?_ ?_ ?_
  · intro k hk hends hstarts
    rcases hsides k hk with hbehind | hon | hfront
    · omega
    · exact (hway k hon).2
    · omega
  · refine ⟨hle, by omega, ⟨_, hhere⟩, fun k hk => ?_⟩
    simp only [Span.contains, Bool.and_eq_false_imp, decide_eq_true_eq, decide_eq_false_iff_not]
    rcases hsides k hk with hbehind | hon | hfront
    · omega
    · have := (readToken_comments hon).2
      omega
    · omega
  · -- anything in front of the mark was passed as blank or comment
    rintro other ⟨hge, hlt, ⟨rest, hother⟩, hfree⟩
    refine Nat.le_of_not_lt fun hbefore => ?_
    obtain ⟨before, hsplit, hbefore'⟩ := hcs.sub hother hge
    have hcovered : Covered (readToken false [] offset cs).comments c
      (offset + byteLength before) := readToken_covers hsplit (by omega)
    rcases hcovered with hspace | hline | ⟨k, hk, hcontains⟩
    · rw [hblank.1] at hspace
      cases hspace
    · rw [hblank.2] at hline
      cases hline
    · rw [hbefore', hfree k (hway k hk).1] at hcontains
      cases hcontains

end Script

namespace Normalize

open Script (Program Node State behindToken tokenFrom?)
open Loader (Call Shape isString_of_hasId)

/-! ## The differences -/

/-- The statements that go. -/
def removals (profile : Profile) (program : Program) : List Edit :=
  if profile.useStrict then []
  else (program.root.preorder.filter isUseStrict).map fun n => .delete n.span

/-- What completes a call of `define`, if it lacks something. -/
def completion? (name : String) (text : List Char) (call : Call) : Option Edit :=
  match Shape.ofArguments call.arguments, call.arguments with
  | ⟨false, hasDependencies⟩, _ =>
    some (.insertAt (behindToken text call.callee.stop) (idText name !hasDependencies))
  | ⟨true, false⟩, [id] => some (.insertAt id.span.stop ",[]".toList)
  | ⟨true, false⟩, id :: _ :: _ => some (.insertAt (behindToken text id.span.stop) "[],".toList)
  | _, _ => none

/-- Exactly the calls that lack something are completed. -/
theorem isSome_completion? (name : String) (text : List Char) (call : Call) :
    (completion? name text call).isSome = !(Shape.ofArguments call.arguments).isComplete := by
  unfold completion?
  match hshape : Shape.ofArguments call.arguments with
  | ⟨false, hasDependencies⟩ => rfl
  | ⟨true, true⟩ => rfl
  | ⟨true, false⟩ =>
    match harguments : call.arguments with
    | [id] => rfl
    | id :: _ :: _ => rfl
    | [] =>
      rw [harguments] at hshape
      cases hshape

/-- The call that is appended when there is none. -/
def addition (profile : Profile) (name : String) (text : List Char) (program : Program) :
    List Edit :=
  if Loader.definitions program.root = [] then
    [.insertAt (byteLength text) (Shim.define name (profile.shim? name))]
  else []

/-- All that normalizing changes in a text. -/
def differences (profile : Profile) (name : String) (text : List Char) (program : Program) :
    List Edit :=
  removals profile program
    ++ (Loader.definitions program.root).filterMap (completion? name text)
    ++ addition profile name text program

/-! ## The edits of a node -/

/-- The stretches of text that tell where a call is completed: from its name to behind its
parenthesis, and from its id to what follows that. -/
def searched (text : List Char) (call : Call) : List Span :=
  ⟨call.callee.stop, behindToken text call.callee.stop⟩ ::
    match call.arguments with
    | [] => []
    | [id] => if Loader.isString id then [⟨id.span.stop, id.span.stop⟩] else []
    | id :: next :: _ => if Loader.isString id then [⟨id.span.stop, next.span.start⟩] else []

/-- The stretches of text the edits of a node rest on. -/
def stretches (useStrict : Bool) (text : List Char) (n : Node) : List Span :=
  if isUseStrict n then if useStrict then [] else [n.span]
  else
    match Call.definition? n with
    | some call =>
      if (Shape.ofArguments call.arguments).isComplete then [] else searched text call
    | none => []

section

variable {text : List Char} {s : State} {call : Call}

/-- Nothing drifts between the id and what follows it. -/
theorem steady_comma {id next : Node} {others : List Node}
    (hsteady : ∀ x ∈ searched text call, x.Steady text)
    (harguments : call.arguments = id :: next :: others) (hid : Loader.isString id = true) :
    Span.Steady text ⟨id.span.stop, next.span.start⟩ :=
  hsteady _ (by simp [searched, harguments, hid])

theorem throughPosition_sole {id : Node} (hsteady : ∀ x ∈ searched text call, x.Steady text)
    (harguments : call.arguments = [id]) (hid : Loader.isString id = true) :
    throughPosition text id.span.stop = id.span.stop :=
  hsteady ⟨id.span.stop, id.span.stop⟩ (by simp [searched, harguments, hid]) _ (Nat.le_refl _)
    (Nat.le_refl _)

/-- The array goes behind the comma that ends the id, or behind an id that stands alone. -/
theorem dependenciesEdit_eq (h : Script.Seated text s call)
    (hsteady : ∀ x ∈ searched text call, x.Steady text) (name : String)
    (hshape : Shape.ofArguments call.arguments = ⟨true, false⟩) :
    dependenciesEdit text (s.reading.comments.reverse.map (·.throughPosition text)) call.arguments
      = (completion? name text call).toList := by
  unfold completion?
  rw [hshape]
  match harguments : call.arguments with
  | [] => rfl
  | [id] =>
    have hid := isString_of_hasId (by rw [← harguments, hshape])
    simp only [dependenciesEdit, throughPosition_sole hsteady harguments hid, Option.toList_some]
  | id :: next :: others =>
    have hid := isString_of_hasId (by rw [← harguments, hshape])
    obtain ⟨stop, hpassed, hle, -⟩ := h.comma id next others harguments hid
    have hlt := hpassed.lt (by decide)
    have hstretch := steady_comma hsteady harguments hid
    have hidEnd := hstretch id.span.stop (Nat.le_refl _) (by simp only; omega)
    have hnext := hstretch next.span.start (by simp only; omega) (Nat.le_refl _)
    have hcomma := hpassed.findOutside_eq (c := ',') rfl ⟨by decide, by decide⟩
      (hstretch.mono (Nat.le_refl _) hle) hle (exists_from_of_throughPosition_eq hnext)
    simp only [dependenciesEdit]
    rw [hnext, hidEnd, hcomma, hpassed.behindToken_eq, show (',' : Char).utf8Size = 1 from rfl]
    simp only [Option.toList_some]
    rw [Nat.sub_add_cancel (by omega)]

/-- A call that is seated in the text is edited behind the tokens the parser saw. -/
theorem callEdits_eq (h : Script.Seated text s call)
    (hsteady : (Shape.ofArguments call.arguments).isComplete = false →
      ∀ x ∈ searched text call, x.Steady text)
    (hlimit : (Shape.ofArguments call.arguments).isComplete = false →
      ∃ cs, From text (throughPosition text call.span.stop) cs) (name : String) :
    callEdits name text (s.reading.comments.reverse.map (·.throughPosition text)) call
      = (completion? name text call).toList := by
  unfold callEdits Loader.repair?
  cases hcomplete : (Shape.ofArguments call.arguments).isComplete with
  | true =>
    have hnone : completion? name text call = none := by
      simpa [hcomplete] using isSome_completion? name text call
    simp [hcomplete, hnone]
  | false =>
    have hsteady := hsteady hcomplete
    obtain ⟨stop, hpassed, hle⟩ := h.opening
    have hlt := hpassed.lt (by decide)
    have hstretch : Span.Steady text ⟨call.callee.stop, stop⟩ :=
      hsteady _ (by simp [searched, hpassed.behindToken_eq])
    have hstart := hstretch call.callee.stop (Nat.le_refl _) (by simp only; omega)
    -- the end of the call may have drifted, but not in front of the parenthesis
    have hend : stop ≤ throughPosition text call.span.stop :=
      hstretch stop (by simp only; omega) (Nat.le_refl _) ▸ throughPosition_mono text hle
    have hopening := hpassed.findOutside_eq (c := '(') rfl ⟨by decide, by decide⟩ hstretch hend
      (hlimit hcomplete)
    rw [hstart, hopening, show ('(' : Char).utf8Size = 1 from rfl]
    match hshape : Shape.ofArguments call.arguments with
    | ⟨true, true⟩ => simp [hshape, Shape.isComplete] at hcomplete
    | ⟨true, false⟩ => simpa [Shape.isComplete] using dependenciesEdit_eq h hsteady name hshape
    | ⟨false, hasDependencies⟩ =>
      simp only [completion?, hshape, hpassed.behindToken_eq, Shape.isComplete, Bool.false_and,
        Bool.false_eq_true, ↓reduceIte, Option.toList_some]
      rw [Nat.sub_add_cancel (by omega)]

/-- What completes a call goes to a place that does not drift. -/
theorem completion_steady (h : Script.Seated text s call)
    (hsteady : ∀ x ∈ searched text call, x.Steady text) {name : String} {e : Edit}
    (he : completion? name text call = some e) :
    ∃ place, e.span = ⟨place, place⟩ ∧ throughPosition text place = place := by
  unfold completion? at he
  split at he
  · cases he
    obtain ⟨stop, hpassed, -⟩ := h.opening
    have hlt := hpassed.lt (by decide)
    rw [hpassed.behindToken_eq]
    exact ⟨stop, rfl, hsteady ⟨call.callee.stop, stop⟩ (by simp [searched, hpassed.behindToken_eq])
      stop (by simp only; omega) (Nat.le_refl _)⟩
  · rename_i id hshape harguments
    cases he
    have hid := isString_of_hasId (by rw [← harguments, hshape])
    exact ⟨_, rfl, throughPosition_sole hsteady harguments hid⟩
  · rename_i id next others hshape harguments
    cases he
    have hid := isString_of_hasId (by rw [← harguments, hshape])
    obtain ⟨stop, hpassed, hle, -⟩ := h.comma id next others harguments hid
    have hlt := hpassed.lt (by decide)
    rw [hpassed.behindToken_eq]
    exact ⟨stop, rfl, steady_comma hsteady harguments hid stop (by simp only; omega) hle⟩
  · cases he

/-- What a call is searched in lies in the text. -/
theorem searched_le (h : Script.Seated text s call) (hstop : call.span.stop ≤ byteLength text) :
    ∀ x ∈ searched text call, x.stop ≤ byteLength text := by
  intro x hx
  rw [searched] at hx
  rcases List.mem_cons.mp hx with rfl | hx
  · obtain ⟨stop, hpassed, hle⟩ := h.opening
    rw [hpassed.behindToken_eq]
    exact Nat.le_trans hle hstop
  · split at hx
    · cases hx
    · rename_i id harguments
      split at hx
      · rename_i hid
        obtain rfl := List.mem_singleton.mp hx
        exact Nat.le_trans (h.sole id harguments hid) hstop
      · cases hx
    · rename_i id next others harguments
      split at hx
      · rename_i hid
        obtain rfl := List.mem_singleton.mp hx
        obtain ⟨-, -, -, hnext⟩ := h.comma id next others harguments hid
        exact hnext
      · cases hx

end

/-! ## The edits of a tree -/

/-- What becomes of a node itself, its parts left out. -/
def nodeDifferences (useStrict : Bool) (name : String) (text : List Char) (n : Node) : List Edit :=
  (if isUseStrict n && !useStrict then [.delete n.span] else [])
    ++ ((Call.definition? n).bind (completion? name text)).toList

theorem kind_of_isUseStrict {n : Node} (h : isUseStrict n = true) :
    n.kind = .expressionStatement := by
  unfold isUseStrict at h
  split at h
  · rfl
  · cases h

theorem call_of_definition? {n : Node} {call : Call} (h : Call.definition? n = some call) :
    n.kind = .call ∧ call.span = n.span := by
  obtain ⟨hcall, -⟩ := Option.filter_eq_some_iff.mp h
  unfold Call.ofNode? at hcall
  split at hcall
  · obtain ⟨function, -, rfl⟩ := Option.map_eq_some_iff.mp hcall
    exact ⟨rfl, rfl⟩
  · cases hcall

/-- A statement is no call. -/
theorem definition?_of_isUseStrict {n : Node} (h : isUseStrict n = true) :
    Call.definition? n = none := by
  rw [Option.eq_none_iff_forall_ne_some]
  intro call hcall
  have hkind := (call_of_definition? hcall).1
  rw [kind_of_isUseStrict h] at hkind
  cases hkind

/-- An edit of a node is at one of the places the node asks for. -/
theorem nodeDifferences_sublist (useStrict : Bool) (name : String) (text : List Char) (n : Node) :
    ((nodeDifferences useStrict name text n).map (·.span)).Sublist (Script.places text n) := by
  unfold nodeDifferences Script.places
  by_cases hstrict : isUseStrict n = true
  · rw [definition?_of_isUseStrict hstrict]
    cases useStrict <;> simp [hstrict, Edit.delete]
  · cases hcall : Call.definition? n with
    | none => simp [hstrict]
    | some call =>
      simp only [hstrict, Bool.false_and, Bool.false_eq_true, ↓reduceIte, List.nil_append,
        Option.bind_some, Script.callPlaces]
      unfold completion?
      split
      · simp [Edit.insertAt]
      · rename_i id hshape harguments
        have hid := isString_of_hasId (by rw [← harguments, hshape])
        simp [harguments, hid, Edit.insertAt]
      · rename_i id next others hshape harguments
        have hid := isString_of_hasId (by rw [← harguments, hshape])
        simp [harguments, hid, Edit.insertAt]
      · simp

section

variable {text : List Char} {s : State} {root : Node}

/-- A `use strict` statement of the tree lies in the text. -/
theorem isUseStrict_bounds (howned : Script.Owned text 0 s [root]) {n : Node}
    (hn : n ∈ root.preorder) (hstrict : isUseStrict n = true) :
    n.span.start ≤ n.span.stop ∧ n.span.stop ≤ s.lastEnd := by
  have hmem := Script.mem_landmarks hn (by rw [kind_of_isUseStrict hstrict]; rfl)
  have hbounds := howned.spaced.bounds n.span
    (List.mem_flatMap.mpr ⟨n, hmem, by simp [Script.places, hstrict]⟩)
  exact hbounds.2

theorem settled_of_definition? (howned : Script.Owned text 0 s [root]) {n : Node} {call : Call}
    (hn : n ∈ root.preorder) (hcall : Call.definition? n = some call) :
    Script.Seated text s call ∧ call.span.stop ≤ s.lastEnd := by
  obtain ⟨hkind, hspan⟩ := call_of_definition? hcall
  have hsettled := howned.settled n (Script.mem_landmarks hn (by rw [hkind]; rfl))
  exact ⟨hsettled.seated call hcall, hspan ▸ hsettled.stop_le hkind⟩

/-- What the edits of a node rest on, if it is a call that lacks something. -/
theorem stretches_of_definition? {useStrict : Bool} {n : Node} {call : Call}
    (hcall : Call.definition? n = some call)
    (hcomplete : (Shape.ofArguments call.arguments).isComplete = false) :
    stretches useStrict text n = searched text call := by
  have hstrict : ¬isUseStrict n = true := fun hstrict => by
    rw [definition?_of_isUseStrict hstrict] at hcall
    cases hcall
  simp [stretches, hstrict, hcall, hcomplete]

/-- Where nothing drifts the edits of a node are what becomes of it. -/
theorem nodeEdits_eq (howned : Script.Owned text 0 s [root]) (useStrict : Bool) (name : String)
    {n : Node} (hn : n ∈ root.preorder)
    (hsteady : ∀ x ∈ stretches useStrict text n, x.Steady text)
    (hlimit : ∀ call, Call.definition? n = some call →
      (Shape.ofArguments call.arguments).isComplete = false →
      ∃ cs, From text (throughPosition text call.span.stop) cs) :
    nodeEdits useStrict name text (s.reading.comments.reverse.map (·.throughPosition text)) n
      = nodeDifferences useStrict name text n := by
  unfold nodeEdits nodeDifferences
  by_cases hstrict : isUseStrict n = true
  · rw [definition?_of_isUseStrict hstrict]
    cases useStrict with
    | true => simp [hstrict]
    | false =>
      have hbounds := isUseStrict_bounds howned hn hstrict
      have hspan : n.span.Steady text := hsteady n.span (by simp [stretches, hstrict])
      have hsame : n.span.throughPosition text = n.span := by
        rw [Span.throughPosition, hspan _ (Nat.le_refl _) hbounds.1,
          hspan _ hbounds.1 (Nat.le_refl _)]
      simp [hstrict, hsame]
  · cases hcall : Call.definition? n with
    | none => simp [hstrict]
    | some call =>
      simp only [hstrict, Bool.false_and, Bool.false_eq_true, ↓reduceIte, List.nil_append,
        Option.bind_some]
      refine callEdits_eq (settled_of_definition? howned hn hcall).1 (fun hcomplete => ?_)
        (hlimit call hcall) name
      rwa [stretches_of_definition? hcall hcomplete] at hsteady

/-- Where nothing drifts what becomes of a node fits the text. -/
theorem fits_of_mem_nodeDifferences (howned : Script.Owned text 0 s [root]) {useStrict : Bool}
    {name : String} {n : Node} (hn : n ∈ root.preorder)
    (hsteady : ∀ x ∈ stretches useStrict text n, x.Steady text) {e : Edit}
    (he : e ∈ nodeDifferences useStrict name text n) : e.Fits text := by
  rcases List.mem_append.mp he with he | he
  · split at he
    · rename_i hremoved
      obtain ⟨hstrict, huse⟩ : isUseStrict n = true ∧ useStrict = false := by simpa using hremoved
      obtain rfl := List.mem_singleton.mp he
      have hle := (isUseStrict_bounds howned hn hstrict).1
      have hspan : n.span.Steady text := hsteady n.span (by simp [stretches, hstrict, huse])
      exact ⟨hle, exists_from_of_throughPosition_eq (hspan _ (Nat.le_refl _) hle),
        exists_from_of_throughPosition_eq (hspan _ hle (Nat.le_refl _)), .inl rfl⟩
    · cases he
  · obtain ⟨call, hcall, hcompletion⟩ := Option.bind_eq_some_iff.mp (Option.mem_toList.mp he)
    have hcomplete : (Shape.ofArguments call.arguments).isComplete = false := by
      simpa [hcompletion] using isSome_completion? name text call
    rw [stretches_of_definition? hcall hcomplete] at hsteady
    obtain ⟨place, hspan, hplace⟩ :=
      completion_steady (settled_of_definition? howned hn hcall).1 hsteady hcompletion
    have hfrom := exists_from_of_throughPosition_eq hplace
    exact ⟨by simp [hspan], by rwa [hspan], by rwa [hspan], .inr (by rw [hspan])⟩

/-- In an ASCII text nothing drifts. -/
theorem steady_of_isAscii (hascii : IsAscii text) (hs : s.On text)
    (howned : Script.Owned text 0 s [root]) {useStrict : Bool} {n : Node}
    (hn : n ∈ root.preorder) : ∀ x ∈ stretches useStrict text n, x.Steady text := by
  have hend := hs.lastEnd_le_byteLength
  intro x hx
  refine hascii.steady ?_
  unfold stretches at hx
  split at hx
  · rename_i hstrict
    split at hx
    · cases hx
    · obtain rfl := List.mem_singleton.mp hx
      exact Nat.le_trans (isUseStrict_bounds howned hn hstrict).2 hend
  · split at hx
    · rename_i call hcall
      split at hx
      · cases hx
      · obtain ⟨hseated, hstop⟩ := settled_of_definition? howned hn hcall
        exact searched_le hseated (Nat.le_trans hstop hend) x hx
    · cases hx

end

/-! ## The edits of a text -/

theorem removals_eq (profile : Profile) (program : Program) :
    removals profile program = program.root.preorder.flatMap fun n =>
      if isUseStrict n && !profile.useStrict then [.delete n.span] else [] := by
  unfold removals
  cases profile.useStrict with
  | true => simp
  | false =>
    induction program.root.preorder with
    | nil => rfl
    | cons n ns ih =>
      cases hstrict : isUseStrict n with
      | true => simpa [hstrict] using ih
      | false => simpa [hstrict] using ih

theorem completions_eq (name : String) (text : List Char) (program : Program) :
    (Loader.definitions program.root).filterMap (completion? name text)
      = program.root.preorder.flatMap fun n =>
        ((Call.definition? n).bind (completion? name text)).toList := by
  rw [Loader.definitions, List.filterMap_filterMap, List.filterMap_eq_flatMap_toList]

/-- What a walk records are the differences inside the text. -/
theorem walk_perm (profile : Profile) (name : String) (text : List Char) (program : Program) :
    (program.root.preorder.flatMap (nodeDifferences profile.useStrict name text)).Perm
      (removals profile program
        ++ (Loader.definitions program.root).filterMap (completion? name text)) := by
  rw [removals_eq, completions_eq]
  exact (List.flatMap_append_perm _ _ _).symm

/-- Removals and completions may be told apart, since removing inserts nothing. -/
theorem insertedAt_walk (profile : Profile) (name : String) (text : List Char) (program : Program)
    (offset : Nat) :
    Edit.insertedAt (program.root.preorder.flatMap (nodeDifferences profile.useStrict name text))
        offset
      = Edit.insertedAt (removals profile program
          ++ (Loader.definitions program.root).filterMap (completion? name text)) offset := by
  have hempty {n : Node} {e : Edit}
      (he : e ∈ if isUseStrict n && !profile.useStrict then [Edit.delete n.span] else []) :
      e.text = [] := by
    split at he
    · obtain rfl := List.mem_singleton.mp he
      rfl
    · cases he
  have hremovals : Edit.insertedAt (removals profile program) offset = [] := by
    refine Edit.insertedAt_of_text (fun e he => ?_) offset
    rw [removals_eq] at he
    obtain ⟨n, -, he⟩ := List.mem_flatMap.mp he
    exact hempty he
  rw [Edit.insertedAt_append, hremovals, completions_eq, List.nil_append]
  induction program.root.preorder with
  | nil => rfl
  | cons n ns ih =>
    simp only [List.flatMap_cons, Edit.insertedAt_append, nodeDifferences, ih]
    rw [Edit.insertedAt_of_text (fun e he => hempty he), List.nil_append]

section

variable {text : List Char} {program : Program}

/-- Only landmarks ask for places. -/
theorem flatMap_places (text : List Char) (ns : List Node) :
    (ns.filter (·.kind.isLandmark)).flatMap (Script.places text)
      = ns.flatMap (Script.places text) := by
  induction ns with
  | nil => rfl
  | cons n ns ih =>
    by_cases hkind : n.kind.isLandmark = true
    · simp [hkind, ih]
    · have hnone : Script.places text n = [] := by
        unfold Script.places
        rw [if_neg fun hstrict => hkind (by rw [kind_of_isUseStrict hstrict]; rfl)]
        cases hcall : Call.definition? n with
        | none => rfl
        | some call => exact absurd (by rw [(call_of_definition? hcall).1]; rfl) hkind
      simp [hkind, hnone, ih]

/-- The places of the recorded edits lie in the text and apart from each other. -/
theorem walk_spaced {s : State} (howned : Script.Owned text 0 s [program.root])
    (useStrict : Bool) (name : String) :
    Script.Spaced 0 s.lastEnd
      ((program.root.preorder.flatMap (nodeDifferences useStrict name text)).map (·.span)) := by
  have hplaces : program.root.preorder.flatMap (Script.places text)
      = (Script.landmarks [program.root]).flatMap (Script.places text) := by
    simp only [Script.landmarks, Node.preorderAll, List.append_nil]
    exact (flatMap_places text _).symm
  refine howned.spaced.subperm (List.Sublist.subperm ?_)
  rw [← hplaces, List.map_flatMap]
  exact List.Sublist.flatMap_right _ fun n _ => nodeDifferences_sublist useStrict name text n

/-- What is added goes to the end of the text. -/
theorem span_of_mem_addition {profile : Profile} {name : String} {e : Edit}
    (he : e ∈ addition profile name text program) :
    e.span.start = byteLength text ∧ e.span.stop = byteLength text := by
  unfold addition at he
  split at he
  · obtain rfl := List.mem_singleton.mp he
    exact ⟨rfl, rfl⟩
  · cases he

theorem fits_of_mem_addition {profile : Profile} {name : String} {e : Edit}
    (he : e ∈ addition profile name text program) : e.Fits text := by
  obtain ⟨hstart, hstop⟩ := span_of_mem_addition he
  have hend : From text (byteLength text) [] := ⟨text, by simp, rfl⟩
  exact ⟨by omega, ⟨[], hstart ▸ hend⟩, ⟨[], hstop ▸ hend⟩, .inr (by omega)⟩

/-- What is recorded lies apart. -/
theorem recorded_apart {s : State} (hs : s.On text)
    (howned : Script.Owned text 0 s [program.root]) (profile : Profile) (name : String) :
    (program.root.preorder.flatMap (nodeDifferences profile.useStrict name text)
      ++ addition profile name text program).Pairwise (·.span.Apart ·.span) := by
  have hspaced := walk_spaced howned profile.useStrict name
  have hend := hs.lastEnd_le_byteLength
  refine List.pairwise_append.mpr ⟨List.pairwise_map.mp hspaced.apart, ?_, fun e he f hf => ?_⟩
  · unfold addition
    split
    · exact List.pairwise_singleton _ _
    · exact .nil
  · -- what is added goes behind all that was recorded in the tree
    have hbounds := hspaced.bounds e.span (List.mem_map_of_mem he)
    have := (span_of_mem_addition hf).1
    exact .inl (by omega)

/-- The offsets that the edits of a text rest on do not drift. -/
structure Undrifted (profile : Profile) (text : List Char) (program : Program) : Prop where
  steady : ∀ n ∈ program.root.preorder, ∀ x ∈ stretches profile.useStrict text n, x.Steady text
  ends : ∀ call ∈ Loader.definitions program.root,
    (Shape.ofArguments call.arguments).isComplete = false →
    throughPosition text call.span.stop = call.span.stop

/-- In an ASCII text nothing drifts. -/
theorem undrifted_of_isAscii {s : State} (hascii : IsAscii text) (hs : s.On text)
    (howned : Script.Owned text 0 s [program.root]) (profile : Profile) :
    Undrifted profile text program := by
  refine ⟨fun n hn => steady_of_isAscii hascii hs howned hn, fun call hcall _ => ?_⟩
  obtain ⟨n, hn, hcall⟩ := List.mem_filterMap.mp hcall
  have hstop := (settled_of_definition? howned hn hcall).2
  rw [hascii.throughPosition_eq]
  exact Nat.min_eq_left (Nat.le_trans hstop hs.lastEnd_le_byteLength)

/-- The differences fit the text, in whatever order they are recorded. -/
theorem differences_fit {s : State} (hs : s.On text)
    (howned : Script.Owned text 0 s [program.root]) {profile : Profile}
    (hsteady : Undrifted profile text program) (name : String) :
    let recorded := program.root.preorder.flatMap (nodeDifferences profile.useStrict name text)
      ++ addition profile name text program
    (∀ e ∈ recorded, e.Fits text) ∧ recorded.Pairwise (·.span.Apart ·.span) := by
  refine ⟨fun e he => ?_, recorded_apart hs howned profile name⟩
  rcases List.mem_append.mp he with he | he
  · obtain ⟨n, hn, he⟩ := List.mem_flatMap.mp he
    exact fits_of_mem_nodeDifferences howned hn (hsteady.steady n hn) he
  · exact fits_of_mem_addition he

/-- The recorded edits are the differences in the order of a walk. -/
theorem edits_eq {s : State} (howned : Script.Owned text 0 s [program.root])
    (hcomments : program.comments = s.reading.comments.reverse) {profile : Profile}
    (hsteady : Undrifted profile text program) (name : String) :
    edits profile name text program
      = program.root.preorder.flatMap (nodeDifferences profile.useStrict name text)
        ++ addition profile name text program := by
  unfold edits treeEdits addition
  rw [hcomments]
  congr 1
  · have hlimit {n : Node} (hn : n ∈ program.root.preorder) (call : Call)
        (hcall : Call.definition? n = some call)
        (hcomplete : (Shape.ofArguments call.arguments).isComplete = false) :
        ∃ cs, From text (throughPosition text call.span.stop) cs := by
      have hend := hsteady.ends call (List.mem_filterMap.mpr ⟨n, hn, hcall⟩) hcomplete
      rw [hend]
      exact exists_from_of_throughPosition_eq hend
    simp only [List.flatMap]
    rw [List.map_congr_left fun n hn => nodeEdits_eq howned profile.useStrict name hn
      (hsteady.steady n hn) (hlimit hn)]
  · simp

/-- In an accepted ASCII text every call of `define` is edited behind the tokens the parser saw. -/
theorem callEdits_of_parse (hascii : IsAscii text)
    (hparse : Script.parse MediaType.javaScript.dialect text = some program) {call : Call}
    (hcall : call ∈ Loader.definitions program.root) (name : String) :
    callEdits name text (program.comments.map (·.throughPosition text)) call
      = (completion? name text call).toList := by
  obtain ⟨s, hs, hcomments, howned⟩ := Script.parse_owned rfl hparse
  obtain ⟨n, hn, hcall⟩ := List.mem_filterMap.mp hcall
  have hsteady : ∀ x ∈ stretches false text n, x.Steady text :=
    steady_of_isAscii hascii hs howned hn
  rw [hcomments]
  refine callEdits_eq (settled_of_definition? howned hn hcall).1 (fun hcomplete => ?_) ?_ name
  · rwa [stretches_of_definition? hcall hcomplete] at hsteady
  · exact fun _ => From.of_isAscii hascii (hascii.throughPosition_eq _ ▸ Nat.min_le_right _ _)

end

end Normalize

end AmdModules
