import AmdModules.Normalize.Edits
import AmdModules.Proofs.Loader.Completion
import AmdModules.Proofs.Reread.Plan
import AmdModules.Proofs.Reread.Program
import AmdModules.Proofs.Syntax.Form

/-!
# Trees of completed texts

When every call of `define` that lacks something gets it (`Plan.For`), the filled text is accepted
(`Plan.For.parse`), and the tree that is read again has complete calls only (`Plan.For.of_alike`): a
node of it is a node of the tree of the text with what was put in, or a part of what was put in, and
that is no call and no statement.
-/

set_option autoImplicit false

namespace AmdModules.Script

open Text
open Loader (Call Shape)
open Normalize (isUseStrict)

/-! ## Trees without their places -/

/-- Induction on trees. -/
theorem Node.induction {P : Node → Prop}
    (h : ∀ (kind : Kind) (span : Span) (parts : List Node), (∀ part ∈ parts, P part) →
      P (.mk kind span parts)) (n : Node) : P n := by
  cases n with
  | mk kind span parts => exact h kind span parts fun part _ => Node.induction h part

theorem Node.preorder_plain (n : Node) : n.plain.preorder = n.preorder.map Node.plain := by
  induction n using Node.induction with
  | h kind span parts ih =>
    rw [Node.plain_mk, Node.preorder, Node.preorder, List.map_cons, Node.plain_mk]
    congr 1
    induction parts with
    | nil => rfl
    | cons part parts ihs =>
      rw [List.map_cons, Node.preorderAll, Node.preorderAll, List.map_append, ih part (by simp),
        ihs fun part hpart => ih part (by simp [hpart])]

/-- What is asked of the arguments of a call is a matter of their kinds. -/
theorem shape_congr {ns ms : List Node} (h : ns.map Node.kind = ms.map Node.kind) :
    Shape.ofArguments ns = Shape.ofArguments ms := by
  have hstring {n m : Node} (h : n.kind = m.kind) : Loader.isString n = Loader.isString m := by
    simp only [Loader.isString, Loader.stringValue?, h]
  have harray {n m : Node} (h : n.kind = m.kind) : Loader.isArray n = Loader.isArray m := by
    simp only [Loader.isArray, h]
  rcases ns with _ | ⟨n, _ | ⟨n', ns⟩⟩ <;> rcases ms with _ | ⟨m, _ | ⟨m', ms⟩⟩ <;>
    simp only [List.map_cons, List.map_nil, List.cons.injEq, reduceCtorEq, and_false] at h
  · rfl
  · simp only [Shape.ofArguments, hstring h.1, harray h.1]
  · simp only [Shape.ofArguments, hstring h.1, harray h.1, harray h.2.1]

theorem kinds_plain (ns : List Node) : (ns.map Node.plain).map Node.kind = ns.map Node.kind := by
  rw [List.map_map]
  refine List.map_congr_left fun n _ => ?_
  cases n
  rfl

/-- A call of `define` is one without its places, and is asked the same of its arguments. -/
theorem definition?_plain (n : Node) :
    (Call.definition? n.plain).map (fun call => Shape.ofArguments call.arguments)
      = (Call.definition? n).map fun call => Shape.ofArguments call.arguments := by
  obtain ⟨kind, span, parts⟩ := n
  rw [Node.plain_mk]
  by_cases hkind : kind = .call
  · subst hkind
    rcases parts with _ | ⟨callee, items⟩
    · rfl
    · rw [List.map_cons, Parser.definition?_call, Parser.definition?_call,
        show callee.plain.kind = callee.kind by cases callee; rfl]
      split
      · simp only [Option.map_some, shape_congr (kinds_plain items)]
      · rfl
  · rw [Filling.definition?_eq_none hkind, Filling.definition?_eq_none hkind]

theorem isUseStrict_plain (n : Node) : isUseStrict n.plain = isUseStrict n := by
  obtain ⟨kind, span, parts⟩ := n
  rw [Node.plain_mk]
  cases kind <;> try rfl
  rcases parts with _ | ⟨part, _ | ⟨part', parts⟩⟩ <;> try rfl
  cases part
  rfl

/-! ## Nodes of what was put in -/

/-- Nothing but strings and arrays. -/
def OnlyLiterals (ns : List Node) : Prop :=
  ∀ m ∈ Node.preorderAll ns, m.kind.IsLiteral

theorem Written.onlyLiterals {literal : List Char} {n : Node} (h : Written literal n) :
    OnlyLiterals [n] := by
  intro m hm
  simp only [Node.preorderAll, List.append_nil] at hm
  cases h with
  | string =>
    obtain rfl := List.mem_singleton.mp hm
    exact .inl ⟨_, rfl⟩
  | empty =>
    obtain rfl := List.mem_singleton.mp hm
    exact .inr rfl
  | @array inside ids =>
    rcases List.mem_cons.mp hm with rfl | hm
    · exact .inr rfl
    · obtain ⟨n, hn, hm⟩ := Node.mem_preorderAll_iff.mp hm
      obtain ⟨id, -, rfl⟩ := List.mem_map.mp hn
      obtain rfl := List.mem_singleton.mp hm
      exact .inl ⟨_, rfl⟩

theorem OnlyLiterals.nil : OnlyLiterals [] := by
  simp [OnlyLiterals, Node.preorderAll]

theorem OnlyLiterals.cons {n : Node} {ns : List Node} (h : OnlyLiterals [n])
    (h' : OnlyLiterals ns) : OnlyLiterals (n :: ns) := by
  intro m hm
  rw [Node.preorderAll] at hm
  rcases List.mem_append.mp hm with hm | hm
  · exact h m (by simpa [Node.preorderAll] using hm)
  · exact h' m hm

theorem Leading.onlyLiterals {lead : List Char} {ns : List Node} (h : Leading lead ns) :
    OnlyLiterals ns := by
  induction h with
  | nil => exact .nil
  | cons _ h _ ih => exact .cons h.onlyLiterals ih

theorem Completes.onlyLiterals {text : List Char} {call : Call} {a : Insertion}
    (h : Completes text call a) : OnlyLiterals a.nodes := by
  cases h with
  | leads h => exact h.onlyLiterals
  | between | follows => exact Written.empty.onlyLiterals

theorem Plan.onlyLiterals {text : List Char} (p : Plan text) (place : Nat) :
    OnlyLiterals (p.filling.nodes place) := by
  cases ha : p.at? place with
  | none => simpa [filling, ha] using OnlyLiterals.nil
  | some a =>
    obtain ⟨call, -, -, -, -, hcompletes⟩ := of_at? ha
    simpa [filling, ha] using hcompletes.onlyLiterals

/-! ## Nodes of the filled text -/

section

variable {text : List Char} {f : Filling text}

/-- The parts of a node of the filled text are those of the text and what was put in. -/
theorem Filling.mem_grow {n m : Node} {parts : List Node} (h : m ∈ f.grow n parts) :
    m ∈ parts ∨ ∃ place, m ∈ f.nodes place := by
  have harguments {arguments others : List Node} (h : m ∈ f.growArguments arguments others) :
      m ∈ others ∨ ∃ place, m ∈ f.nodes place := by
    unfold growArguments at h
    split at h
    · split at h
      · simp only [List.mem_cons, List.mem_append] at h
        rcases h with rfl | h | h
        · exact .inl (by simp)
        · exact .inr ⟨_, h⟩
        · exact .inl (by simp [h])
      · exact .inl h
    · exact .inl h
  unfold grow at h
  split at h
  · simp only [List.mem_cons, List.mem_append] at h
    rcases h with rfl | h | h
    · exact .inl (by simp)
    · exact .inr ⟨_, h⟩
    · exact (harguments h).imp_left fun h => by simp [h]
  · exact .inl h

/-- A node of the filled text is one of the text, or part of what was put in. -/
theorem Filling.mem_preorder_mirror {m : Node} (n : Node) (h : m ∈ (f.mirror n).preorder) :
    (∃ m₀ ∈ n.preorder, m = f.mirror m₀) ∨ ∃ place, m ∈ Node.preorderAll (f.nodes place) := by
  induction n using Node.induction with
  | h kind span parts ih =>
    rw [mirror_mk, Node.preorder] at h
    rcases List.mem_cons.mp h with rfl | h
    · exact .inl ⟨_, by simp [Node.preorder], (mirror_mk kind span parts).symm⟩
    · obtain ⟨part', hpart', hm⟩ := Node.mem_preorderAll_iff.mp h
      rcases mem_grow hpart' with hpart | ⟨place, hplace⟩
      · obtain ⟨part, hmem, rfl⟩ := List.mem_map.mp hpart
        refine (ih part hmem hm).imp_left fun ⟨m₀, hm₀, heq⟩ => ⟨m₀, ?_, heq⟩
        rw [Node.preorder]
        exact List.mem_cons_of_mem _ (Node.mem_preorderAll_iff.mpr ⟨part, hmem, hm₀⟩)
      · exact .inr ⟨place, Node.mem_preorderAll_iff.mpr ⟨part', hplace, hm⟩⟩

/-- All parts of a node are read again. -/
theorem Filling.subset_grow (n : Node) (parts : List Node) : parts ⊆ f.grow n parts := by
  have harguments (arguments others : List Node) : others ⊆ f.growArguments arguments others := by
    intro m hm
    unfold growArguments
    split
    · split
      · rcases List.mem_cons.mp hm with rfl | hm <;> simp [*]
      · exact hm
    · exact hm
  intro m hm
  unfold grow
  split
  · rename_i call callee others _
    rcases List.mem_cons.mp hm with rfl | hm
    · exact List.mem_cons_self
    · exact List.mem_cons_of_mem _ (List.mem_append_right _ (harguments call.arguments others hm))
  · exact hm

theorem Filling.mirror_mem_preorder {m : Node} (n : Node) (h : m ∈ n.preorder) :
    f.mirror m ∈ (f.mirror n).preorder := by
  induction n using Node.induction with
  | h kind span parts ih =>
    rw [Node.preorder] at h
    rw [mirror_mk, Node.preorder]
    rcases List.mem_cons.mp h with rfl | h
    · rw [mirror_mk]
      exact List.mem_cons_self
    · obtain ⟨part, hpart, hm⟩ := Node.mem_preorderAll_iff.mp h
      refine List.mem_cons_of_mem _
        (Node.mem_preorderAll_iff.mpr ⟨f.mirror part, ?_, ih part hpart hm⟩)
      exact subset_grow _ _ (List.mem_map_of_mem hpart)

theorem kind_mirror (n : Node) : (f.mirror n).kind = n.kind := by
  obtain ⟨kind, span, parts⟩ := n
  rw [Filling.mirror_mk]
  rfl

theorem kinds_mirror (ns : List Node) : (ns.map f.mirror).map Node.kind = ns.map Node.kind := by
  rw [List.map_map]
  exact List.map_congr_left fun n _ => kind_mirror n

theorem isUseStrict_mirror (n : Node) : isUseStrict (f.mirror n) = isUseStrict n := by
  obtain ⟨kind, span, parts⟩ := n
  by_cases hkind : kind = .expressionStatement
  · subst hkind
    rw [Filling.reshapes_mirror.node (by decide)]
    rcases parts with _ | ⟨part, _ | ⟨part', parts⟩⟩
    · rfl
    · simp only [List.map_cons, List.map_nil, isUseStrict, kind_mirror]
    · rfl
  · rw [Filling.mirror_mk]
    cases kind <;> first | rfl | exact absurd rfl hkind

/-- The call that a call of `define` is read as. -/
theorem definition?_mirror (n : Node) :
    (Call.definition? (f.mirror n)).map (·.arguments)
      = (Call.definition? n).map fun call => f.nodes (behindToken text call.callee.stop)
        ++ f.growArguments call.arguments (call.arguments.map f.mirror) := by
  obtain ⟨kind, span, parts⟩ := n
  by_cases hkind : kind = .call
  · subst hkind
    rcases parts with _ | ⟨callee, items⟩
    · rfl
    · rw [Parser.mirror_call, Parser.definition?_call, Parser.definition?_call, kind_mirror]
      by_cases hdefine : callee.kind = .identifier "define"
      · rw [if_pos hdefine, if_pos hdefine, if_pos hdefine]
        rfl
      · rw [if_neg hdefine, if_neg hdefine]
        rfl
  · rw [Filling.mirror_mk, Filling.definition?_eq_none hkind, Filling.definition?_eq_none hkind]
    rfl

end

/-! ## Complete calls -/

/-- A plan that gives something to the calls of a tree that lack something, and to no others. -/
structure Plan.For {text : List Char} (p : Plan text) (root : Node) : Prop where
  calls : p.calls = Loader.definitions root
  lacking : ∀ call ∈ p.calls,
    (p.added? call).isSome = !(Shape.ofArguments call.arguments).isComplete
  disjoint : p.calls.Pairwise fun call call' =>
    (callPlaces text call).Disjoint (callPlaces text call')

namespace Plan

variable {text : List Char} {p : Plan text} {root : Node} {call : Call} {a : Insertion}

/-- The calls share no place. -/
theorem For.eq_of_mem (hp : p.For root) {call' : Call} (hcall : call ∈ p.calls)
    (hcall' : call' ∈ p.calls) {x : Nat} (hx : x ∈ callPlaces text call)
    (hx' : x ∈ callPlaces text call') : call = call' := by
  have : Std.Symm fun call call' => (callPlaces text call).Disjoint (callPlaces text call') :=
    ⟨fun _ _ h => h.symm⟩
  by_contra hne
  exact hp.disjoint.forall hcall hcall' hne hx hx'

/-- A call gets what it was planned to get. -/
theorem For.nodes_eq (hp : p.For root) (hcall : call ∈ p.calls) (ha : p.added? call = some a) :
    p.filling.nodes a.place = a.nodes ∧ p.filling.put a.place = a.text := by
  have hsome : (p.owner? a.place).isSome = true := by
    rw [owner?, List.find?_isSome]
    exact ⟨call, hcall, by simp [ha]⟩
  obtain ⟨call', howner⟩ := Option.isSome_iff_exists.mp hsome
  obtain ⟨hcall', a', ha', hplace, hat⟩ := of_owner? howner
  have hmem := (p.completes call hcall a ha).mem_callPlaces
  have hmem' := (p.completes call' hcall' a' ha').mem_callPlaces
  rw [hplace] at hmem'
  obtain rfl := hp.eq_of_mem hcall hcall' hmem hmem'
  rw [ha] at ha'
  cases ha'
  simp [filling, hat]

/-- And it gets nothing at its other places. -/
theorem For.put_eq_nil (hp : p.For root) (hcall : call ∈ p.calls) {x : Nat}
    (hx : x ∈ callPlaces text call) (hother : ∀ a, p.added? call = some a → a.place ≠ x) :
    p.filling.put x = [] := by
  cases hat : p.at? x with
  | none => simp [filling, hat]
  | some a =>
    obtain ⟨call', -, hcall', ha, rfl, hcompletes⟩ := of_at? hat
    obtain rfl := hp.eq_of_mem hcall hcall' hx hcompletes.mem_callPlaces
    exact absurd rfl (hother a ha)

theorem hasId_cons (id : Node) (others : List Node) :
    (Shape.ofArguments (id :: others)).hasId = Loader.isString id := by
  cases others with
  | nil => rfl
  | cons next others => cases hid : Loader.isString id <;> simp [Shape.ofArguments, hid]

/-- An id with an empty array behind it. -/
theorem isComplete_emptyArray {f : Filling text} {id : Node} (hid : Loader.isString id = true)
    (others : List Node) :
    (Shape.ofArguments (f.mirror id :: emptyArray :: others)).isComplete = true := by
  refine Loader.isComplete_iff.mpr ⟨_, _, others, rfl, ?_, rfl⟩
  rwa [Loader.isString, Loader.stringValue?, kind_mirror]

/-- **A call that was read again lacks nothing.** -/
theorem For.isComplete (hp : p.For root) (hcall : call ∈ p.calls) :
    (Shape.ofArguments (p.filling.nodes (behindToken text call.callee.stop)
      ++ p.filling.growArguments call.arguments
        (call.arguments.map p.filling.mirror))).isComplete = true := by
  have hmirrored : Shape.ofArguments (call.arguments.map p.filling.mirror)
      = Shape.ofArguments call.arguments := shape_congr (kinds_mirror _)
  have hopening : behindToken text call.callee.stop ∈ callPlaces text call := List.mem_cons_self
  have hlacking := hp.lacking call hcall
  cases ha : p.added? call with
  | none =>
    have hnone {x : Nat} (hx : x ∈ callPlaces text call) : p.filling.put x = [] :=
      hp.put_eq_nil hcall hx fun a ha' => by
        rw [ha] at ha'
        cases ha'
    rw [p.filling.nodes_nil (hnone hopening), Parser.growArguments_eq fun id others heq hid =>
      hnone (Parser.mem_callPlaces.mpr (.inr ⟨id, others, heq, hid, rfl⟩)), List.nil_append,
      hmirrored]
    simpa [ha] using hlacking
  | some a =>
    obtain ⟨hnodes, -⟩ := hp.nodes_eq hcall ha
    have hfront (hne : a.place ≠ behindToken text call.callee.stop) :
        p.filling.nodes (behindToken text call.callee.stop) = [] :=
      p.filling.nodes_nil <| hp.put_eq_nil hcall hopening fun a' ha' => by
        rw [ha] at ha'
        cases ha'
        exact hne
    obtain ⟨s, hseated⟩ := p.seated call hcall
    have hcompletes := p.completes call hcall a ha
    cases hcompletes with
    | leads h hlength hid hcomplete =>
      rw [hnodes, Parser.growArguments_eq fun id others heq hstring => ?_]
      · exact hcomplete _ hmirrored
      · rw [heq, hasId_cons, hstring] at hid
        cases hid
    | @between id next others hid harguments =>
      obtain ⟨stop, hpassed, -⟩ := hseated.comma id next others harguments hid
      have hlt := hpassed.lt (by decide)
      have hle := hseated.inside id _ harguments hid
      rw [hfront (by simp only [hpassed.behindToken_eq]; omega), List.nil_append, harguments,
        List.map_cons, Filling.growArguments, if_pos hid]
      rw [show idPlace text id (next :: others) = behindToken text id.span.stop from rfl, hnodes]
      exact isComplete_emptyArray hid _
    | @follows id hid harguments h =>
      have hlt := h.lt
      rw [hfront (by simp only; omega), List.nil_append, harguments, List.map_cons,
        Filling.growArguments, if_pos hid, show idPlace text id [] = id.span.stop from rfl, hnodes]
      exact isComplete_emptyArray hid _

/-- A node of the tree that is read from the filled text. -/
theorem plain_of_alike {root' n' : Node} (h : p.filling.Alike root root')
    (hn : n' ∈ root'.preorder) :
    (∃ n ∈ root.preorder, n'.plain = p.filling.mirror n) ∨ n'.plain.kind.IsLiteral := by
  have hmem : n'.plain ∈ (p.filling.mirror root).preorder := by
    rw [← h, Node.preorder_plain]
    exact List.mem_map_of_mem hn
  refine (Filling.mem_preorder_mirror root hmem).imp_right fun ⟨place, hplace⟩ => ?_
  exact p.onlyLiterals place _ hplace

theorem of_isLiteral {n : Node} (h : n.kind.IsLiteral) :
    Call.definition? n = none ∧ isUseStrict n = false := by
  obtain ⟨kind, span, parts⟩ := n
  rcases h with ⟨value, rfl⟩ | rfl
  · exact ⟨Filling.definition?_eq_none (by nofun) _ _, rfl⟩
  · exact ⟨Filling.definition?_eq_none (by nofun) _ _, rfl⟩

/-- **What is read again.** All calls of `define` in the tree that is read from the filled text lack
nothing, there are such calls if there were, and no `use strict` statement has come in. -/
theorem For.of_alike (hp : p.For root) {root' : Node} (h : p.filling.Alike root root') :
    (∀ call ∈ Loader.definitions root', (Shape.ofArguments call.arguments).isComplete = true)
      ∧ (Loader.definitions root ≠ [] → Loader.definitions root' ≠ [])
      ∧ ((∀ n ∈ root.preorder, isUseStrict n = false) →
        ∀ n ∈ root'.preorder, isUseStrict n = false) := by
  refine ⟨fun call' hcall' => ?_, fun hsome => ?_, fun hnone n' hn' => ?_⟩
  · obtain ⟨n', hn', hcall'⟩ := List.mem_filterMap.mp hcall'
    have hshape := definition?_plain n'
    rw [hcall', Option.map_some] at hshape
    rcases plain_of_alike h hn' with ⟨n, hn, heq⟩ | hliteral
    · have hread := definition?_mirror (f := p.filling) n
      rw [heq] at hshape
      obtain ⟨call'', hcall'', hsame⟩ := Option.map_eq_some_iff.mp hshape
      rw [hcall'', Option.map_some] at hread
      obtain ⟨call, hcall, harguments⟩ := Option.map_eq_some_iff.mp hread.symm
      have hmem : call ∈ p.calls := hp.calls ▸ List.mem_filterMap.mpr ⟨n, hn, hcall⟩
      rw [← hsame, ← harguments]
      exact hp.isComplete hmem
    · rw [(of_isLiteral hliteral).1] at hshape
      cases hshape
  · obtain ⟨call, hcall⟩ := List.exists_mem_of_ne_nil _ hsome
    obtain ⟨n, hn, hcall⟩ := List.mem_filterMap.mp hcall
    have hread := Filling.mirror_mem_preorder (f := p.filling) root hn
    rw [← h, Node.preorder_plain] at hread
    obtain ⟨n', hn', heq⟩ := List.mem_map.mp hread
    have hshape := definition?_plain n'
    have hread := definition?_mirror (f := p.filling) n
    rw [heq] at hshape
    rw [hcall, Option.map_some] at hread
    obtain ⟨call'', hcall'', -⟩ := Option.map_eq_some_iff.mp hread
    rw [hcall'', Option.map_some] at hshape
    obtain ⟨call', hcall', -⟩ := Option.map_eq_some_iff.mp hshape.symm
    exact List.ne_nil_of_mem (List.mem_filterMap.mpr ⟨n', hn', hcall'⟩)
  · rw [← isUseStrict_plain]
    rcases plain_of_alike h hn' with ⟨n, hn, heq⟩ | hliteral
    · rw [heq, isUseStrict_mirror]
      exact hnone n hn
    · exact (of_isLiteral hliteral).2

/-! ## Accepted again -/

/-- What is put in makes the text longer. -/
theorem length_put_le (place : Nat) :
    p.filling.put place = []
      ∨ text.length + (p.filling.put place).length ≤ (p.filling.fill text).length := by
  cases ha : p.at? place with
  | none => exact .inl (by simp [filling, ha])
  | some a =>
    obtain ⟨call, -, hcall, -, rfl, hcompletes⟩ := of_at? ha
    obtain ⟨s, hseated⟩ := p.seated call hcall
    obtain ⟨o, c, cs, hfrom, -, hplace⟩ := hcompletes.behindStop hseated
    exact .inr (hplace ▸ Filling.length_put_le hfrom)

/-- **A completed text is accepted.** -/
theorem For.parse {dialect : Dialect} {program : Program} (hp : p.For program.root)
    (hmarkup : dialect.markup = false)
    (hparse : Script.parse { dialect with forgiving := false } text = some program)
    (hsome : ∃ call ∈ p.calls, (Shape.ofArguments call.arguments).isComplete = false) :
    ∃ program', Script.parse dialect (p.filling.fill text) = some program'
      ∧ p.filling.Alike program.root program'.root := by
  obtain ⟨call, hcall, hincomplete⟩ := hsome
  obtain ⟨a, ha⟩ := Option.isSome_iff_exists.mp
    ((hp.lacking call hcall).trans (by rw [hincomplete]; rfl))
  obtain ⟨-, hput⟩ := hp.nodes_eq hcall ha
  have hne := (p.completes call hcall a ha).text_ne_nil hincomplete
  have hgrows : text.length + 1 ≤ (p.filling.fill text).length := by
    have hpos := List.length_pos_iff.mpr hne
    rcases p.length_put_le a.place with hnil | hle
    · exact absurd (hput.symm.trans hnil) hne
    · rw [hput] at hle
      omega
  refine parse_filled hmarkup hparse (fun x hx => ?_) hgrows fun n => legible fun place => ?_
  · obtain ⟨call, howner, hcall, hplace⟩ := exists_owner hx
    obtain ⟨n, hn, hdefinition⟩ := List.mem_filterMap.mp (hp.calls ▸ hcall)
    have hlandmark : n ∈ landmarks [program.root] :=
      mem_landmarks hn (by rw [(Normalize.call_of_definition? hdefinition).1]; rfl)
    refine ⟨call, howner, List.mem_flatMap.mpr ⟨n, hlandmark, ?_⟩⟩
    rw [callSites, hdefinition]
    exact List.mem_map.mpr ⟨x, hplace, rfl⟩
  · rcases p.length_put_le place with hnil | hle
    · rw [hnil, List.length_nil]
      omega
    · omega

end Plan

end AmdModules.Script
