import AmdModules.Loader.Definition
import AmdModules.Proofs.Reread.Lexeme

/-!
# What is put into calls

A `Plan` says of the calls of a text what each gets, if anything: arguments behind its parenthesis,
an empty array behind the comma that ends its id, or a comma and an empty array behind an id that
stands alone. It makes a filling (`Plan.filling`) that is legible to every grammar with room for
what is put in (`Plan.legible`).
-/

set_option autoImplicit false

namespace AmdModules.Script

open Text
open Loader (Call Shape)

/-! ## The character in front of a place -/

/-- A literal that did not end with the text or the line ended with its quote. -/
theorem readQuoted_ended {quote : Char} {value value' rest cs : List Char} {owed offset stop : Nat}
    (h : readQuoted quote value owed offset cs = .ended value' stop rest) :
    rest = [] ∨ (∃ c ∈ rest.head?, isLineEnd c = true)
      ∨ ∃ passed, cs = passed ++ quote :: rest := by
  have hcons {c : Char} {cs : List Char} (h : rest = [] ∨ (∃ c ∈ rest.head?, isLineEnd c = true)
      ∨ ∃ passed, cs = passed ++ quote :: rest) :
      rest = [] ∨ (∃ c ∈ rest.head?, isLineEnd c = true)
        ∨ ∃ passed, c :: cs = passed ++ quote :: rest := by
    refine h.imp_right (.imp_right fun hsplit => ?_)
    obtain ⟨passed, rfl⟩ := hsplit
    exact ⟨c :: passed, rfl⟩
  fun_induction readQuoted quote value owed offset cs
  case case1 =>
    cases h
    exact .inl rfl
  case case2 ih => exact hcons (ih h)
  case case3 hquote =>
    obtain ⟨-, -, rfl⟩ := Quoted.ended.inj h
    rw [beq_iff_eq] at hquote
    exact .inr (.inr ⟨[], by rw [hquote]; rfl⟩)
  case case4 ih => exact hcons (ih h)
  case case5 => cases h
  case case6 hline =>
    cases h
    refine .inr (.inl ⟨_, rfl, ?_⟩)
    simp only [Bool.or_eq_true, beq_iff_eq] at hline
    rcases hline with rfl | rfl <;> rfl
  case case7 ih => exact hcons (ih h)

/-- Only quotes start a string. -/
theorem readKind_of_string {c : Char} {cs rest : List Char} {value : String} {bytes : Nat}
    (h : readKind (c :: cs) = (.string value, bytes, rest)) :
    (c == '\x22' || c == '\x27') = true ∧ ∃ value', readQuoted c [] 0 c.utf8Size cs
      = .ended value' bytes rest := by
  unfold readKind at h
  dsimp only at h
  split at h
  · split at h
    · cases h
    · split at h <;> cases h
    · cases h
  · split at h
    · rename_i hquote
      refine ⟨hquote, ?_⟩
      split at h
      · rename_i value' _ _ hquoted
        cases h
        exact ⟨value', hquoted⟩
      · cases h
    · split at h
      · split at h <;> cases h
      · split at h <;> cases h

/-- A literal that is read whatever follows it ends with its quote. -/
theorem closed_of_readKind {spelling : List Char} {value : String} {bytes : Nat}
    (h : ∀ after, readKind (spelling ++ after) = (.string value, bytes, after)) :
    ∃ before quote, spelling = before ++ [quote] ∧ isStop quote = true := by
  have hread := h ['x']
  rcases spelling with _ | ⟨c, body⟩
  · cases hread
  · obtain ⟨hquote, value', hquoted⟩ := readKind_of_string hread
    rcases readQuoted_ended hquoted with hnil | ⟨d, hd, hline⟩ | ⟨passed, hsplit⟩
    · cases hnil
    · cases hd
      cases hline
    · have hends : body ++ ['x'] = passed ++ [c] ++ ['x'] := by simpa using hsplit
      have hbody := List.append_cancel_right hends
      refine ⟨c :: passed, c, by rw [hbody]; rfl, ?_⟩
      simp only [Bool.or_eq_true, beq_iff_eq] at hquote
      rcases hquote with rfl | rfl <;> rfl

/-- The character in front of a place depends on the place alone. -/
theorem eq_of_from_cons {text : List Char} {o o' : Nat} {c d : Char} {cs ds : List Char}
    (h : From text o (c :: cs)) (h' : From text o' (d :: ds))
    (hplace : o + c.utf8Size = o' + d.utf8Size) : c = d := by
  have htail := h'.tail
  rw [← hplace] at htail
  obtain rfl := Filling.eq_of_from h.tail htail
  obtain ⟨before, htext, -⟩ := h
  obtain ⟨before', htext', -⟩ := h'
  have hends : before ++ [c] ++ cs = before' ++ [d] ++ cs := by
    simpa using htext.symm.trans htext'
  have hlast := congrArg List.getLast? (List.append_cancel_right hends)
  simpa using hlast

/-- A place behind one of the characters that something may be put behind. -/
def BehindStop (text : List Char) (place : Nat) : Prop :=
  ∃ o c cs, From text o (c :: cs) ∧ isStop c = true ∧ o + c.utf8Size = place

theorem Passed.behindStop {text : List Char} {s : State} {offset stop : Nat} {m : String} {c : Char}
    (h : Passed text s offset m stop) (hm : m.toList = [c]) (hstop : isStop c = true) :
    BehindStop text stop := by
  obtain ⟨cs, -, -, hcs, hkind, hend, -⟩ := h
  obtain ⟨hhere, hlength⟩ := readToken_mark hkind
  have hfrom := (readToken_cuts false [] offset cs).from_here hcs
  rw [hhere, hm] at hfrom
  rw [hend, hm, byteLength_cons, byteLength_nil] at hlength
  exact ⟨_, c, _, hfrom, hstop, by omega⟩

theorem Complete.behindStop {text : List Char} {call : Call} {id : Node}
    (h : Complete text call id) : BehindStop text id.span.stop := by
  obtain ⟨cs, hcs, value, spelling, rest, hhere, hlength, hread⟩ := h
  obtain ⟨before, quote, rfl, hstop⟩ := closed_of_readKind hread
  have hfrom := (readToken_cuts false [] _ cs).from_here hcs
  rw [hhere, List.append_assoc] at hfrom
  rw [byteLength_append, byteLength_cons, byteLength_nil] at hlength
  exact ⟨_, quote, rest, hfrom.append, hstop, by omega⟩

/-- A complete id ends behind the parenthesis it stands behind. -/
theorem Complete.lt {text : List Char} {call : Call} {id : Node} (h : Complete text call id) :
    behindToken text call.callee.stop < id.span.stop := by
  obtain ⟨cs, hcs, value, spelling, rest, hhere, hlength, hread⟩ := h
  obtain ⟨before, quote, rfl, hstop⟩ := closed_of_readKind hread
  have hcuts := readToken_cuts false [] (behindToken text call.callee.stop) cs
  have hle := hcuts.le_start
  have hle' := hcuts.start_le
  have hpos := quote.utf8Size_pos
  rw [byteLength_append, byteLength_cons] at hlength
  omega

/-! ## Insertions -/

/-- What is put into a text at some place, and the trees that are read there. -/
structure Insertion where
  place : Nat
  text : List Char
  nodes : List Node

/-- An array without elements. -/
def emptyArray : Node :=
  .mk .array ⟨0, 0⟩ []

/-- An insertion that completes a call: arguments in front of all others if the call has no id, and
an empty array behind the id otherwise. -/
inductive Completes (text : List Char) (call : Call) : Insertion → Prop
  | leads {lead : List Char} {ns : List Node} (h : Leading lead ns) (hlength : ns.length ≤ 2)
    (hid : (Shape.ofArguments call.arguments).hasId = false)
    (hcomplete : ∀ arguments : List Node, Shape.ofArguments arguments
        = Shape.ofArguments call.arguments →
      (Shape.ofArguments (ns ++ arguments)).isComplete = true) :
    Completes text call ⟨behindToken text call.callee.stop, lead, ns⟩
  | between {id next : Node} {others : List Node} (hid : Loader.isString id = true)
    (harguments : call.arguments = id :: next :: others) :
    Completes text call ⟨behindToken text id.span.stop, "[],".toList, [emptyArray]⟩
  | follows {id : Node} (hid : Loader.isString id = true) (harguments : call.arguments = [id])
    (h : Complete text call id) : Completes text call ⟨id.span.stop, ",[]".toList, [emptyArray]⟩

namespace Completes

variable {text : List Char} {call : Call} {a : Insertion}

theorem mem_callPlaces (h : Completes text call a) : a.place ∈ callPlaces text call := by
  rw [callPlaces]
  cases h with
  | leads => exact List.mem_cons_self
  | between hid harguments => simp [harguments, hid]
  | follows hid harguments => simp [harguments, hid]

theorem plain (h : Completes text call a) : a.nodes.map Node.plain = a.nodes := by
  cases h with
  | leads h => exact h.plain
  | between | follows => rfl

theorem nodes_nil (h : Completes text call a) (hnone : a.text = []) : a.nodes = [] := by
  cases h with
  | leads h =>
    subst hnone
    exact h.nil_of_nil
  | between | follows => cases hnone

theorem text_ne_nil (h : Completes text call a)
    (hincomplete : (Shape.ofArguments call.arguments).isComplete = false) : a.text ≠ [] := by
  cases h with
  | leads h hlength hid hcomplete =>
    rintro (rfl : _ = [])
    rw [h.nil_of_nil] at hcomplete
    exact absurd (hcomplete call.arguments rfl) (by rw [List.nil_append, hincomplete]; decide)
  | between | follows => exact List.cons_ne_nil _ _

theorem behindStop {s : State} (h : Completes text call a) (hseated : Seated text s call) :
    BehindStop text a.place := by
  cases h with
  | leads =>
    obtain ⟨stop, hpassed, -⟩ := hseated.opening
    rw [hpassed.behindToken_eq]
    exact hpassed.behindStop rfl rfl
  | between hid harguments =>
    obtain ⟨stop, hpassed, -⟩ := hseated.comma _ _ _ harguments hid
    rw [hpassed.behindToken_eq]
    exact hpassed.behindStop rfl rfl
  | follows _ _ h => exact h.behindStop

end Completes

/-! ## Plans -/

/-- What is put into the calls of a text. -/
structure Plan (text : List Char) where
  calls : List Call
  added? : Call → Option Insertion
  completes : ∀ call ∈ calls, ∀ a, added? call = some a → Completes text call a
  seated : ∀ call ∈ calls, ∃ s, Seated text s call

namespace Plan

variable {text : List Char} (p : Plan text)

/-- The first call that gets something at a place. -/
def owner? (place : Nat) : Option Call :=
  p.calls.find? fun call => (p.added? call).any (·.place == place)

/-- What is put in at a place. -/
def at? (place : Nat) : Option Insertion :=
  (p.owner? place).bind p.added?

variable {p} {place : Nat} {call : Call} {a : Insertion}

theorem of_owner? (h : p.owner? place = some call) :
    call ∈ p.calls ∧ ∃ a, p.added? call = some a ∧ a.place = place ∧ p.at? place = some a := by
  have hfound := List.find?_some h
  cases ha : p.added? call with
  | none => simp [ha] at hfound
  | some a =>
    refine ⟨List.mem_of_find?_eq_some h, a, rfl, by simpa [ha] using hfound, ?_⟩
    rw [at?, h]
    exact ha

theorem of_at? (h : p.at? place = some a) :
    ∃ call, p.owner? place = some call ∧ call ∈ p.calls ∧ p.added? call = some a
      ∧ a.place = place ∧ Completes text call a := by
  obtain ⟨call, howner, -⟩ := Option.bind_eq_some_iff.mp h
  obtain ⟨hcall, a', ha, hplace, hat⟩ := of_owner? howner
  rw [h] at hat
  cases hat
  exact ⟨call, howner, hcall, ha, hplace, p.completes call hcall a ha⟩

variable (p) in
/-- The filling that puts in what is planned. -/
def filling : Filling text where
  put place := ((p.at? place).map (·.text)).getD []
  owns place call := p.owner? place = some call
  nodes place := ((p.at? place).map (·.nodes)).getD []
  nodes_nil {place} h := by
    cases ha : p.at? place with
    | none => rfl
    | some a =>
      obtain ⟨call, -, -, -, -, hcompletes⟩ := of_at? ha
      exact hcompletes.nodes_nil (by simpa [ha] using h)
  nodes_plain place := by
    cases ha : p.at? place with
    | none => rfl
    | some a =>
      obtain ⟨call, -, -, -, -, hcompletes⟩ := of_at? ha
      exact hcompletes.plain
  plain {o c cs} hfrom hc := by
    cases ha : p.at? (o + c.utf8Size) with
    | none => rfl
    | some a =>
      obtain ⟨call, -, hcall, -, hplace, hcompletes⟩ := of_at? ha
      obtain ⟨s, hseated⟩ := p.seated call hcall
      obtain ⟨o', d, ds, hfrom', hstop, hbehind⟩ := hcompletes.behindStop hseated
      rw [eq_of_from_cons hfrom hfrom' (by omega), hstop] at hc
      cases hc

/-- Something is put in only where a call gets it. -/
theorem put_of_owner? (h : p.owner? place = some call) :
    ∃ a, Completes text call a ∧ a.place = place ∧ p.filling.put place = a.text
      ∧ p.filling.nodes place = a.nodes := by
  obtain ⟨hcall, a, ha, hplace, hat⟩ := of_owner? h
  exact ⟨a, p.completes call hcall a ha, hplace, by simp [filling, hat], by simp [filling, hat]⟩

theorem exists_owner (h : p.filling.put place ≠ []) :
    ∃ call, p.owner? place = some call ∧ call ∈ p.calls ∧ place ∈ callPlaces text call := by
  cases ha : p.at? place with
  | none => exact absurd (by simp [filling, ha]) h
  | some a =>
    obtain ⟨call, howner, hcall, -, rfl, hcompletes⟩ := of_at? ha
    exact ⟨call, howner, hcall, hcompletes.mem_callPlaces⟩

theorem leading_emptyArray : Leading "[],".toList [emptyArray] :=
  .cons (.inl rfl) .empty .nil

/-- A comma and an empty array that are put in behind an id are read. -/
theorem emptyArray_behind {room : Nat} (hroom : ",[]".toList.length + 5 ≤ room) {c : Context}
    {s : State} {cs : List Char} (hat : s.At (",[]".toList ++ cs))
    (hnext : ∀ t : State, t.At cs → t.lastEnd = s.lastEnd + byteLength ",[]".toList →
      t.reading.token.kind = .mark "," ∨ t.reading.token.kind = .mark ")") :
    s.reading.token.kind = .mark "," ∧ Parser.isMarkOrEnd ")" c s.next = .done false s.next
      ∧ ∃ n t, Parser.element (grammar room) c s.next = .done n t ∧ n.plain = emptyArray ∧ t.At cs
        ∧ t.lastEnd = s.lastEnd + byteLength ",[]".toList ∧ t.inModule = s.inModule := by
  have hat' : s.At (',' :: ([] ++ ("[]".toList ++ cs))) := hat
  obtain ⟨hcomma, hbehind, hlast, hmodule⟩ := hat'.mark lexeme_comma
  have hsize : byteLength ",[]".toList = 1 + (0 + byteLength "[]".toList) := rfl
  have hcommaSize : (',' : Char).utf8Size = 1 := rfl
  have hend {t : State} (hlast' : t.lastEnd
      = s.next.lastEnd + byteLength [] + byteLength "[]".toList) :
      t.lastEnd = s.lastEnd + byteLength ",[]".toList := by
    rw [byteLength_nil] at hlast'
    omega
  obtain ⟨hopens, n, t, helement, hplain, ht, hlast', hmodule'⟩ :=
    Parser.element_written .empty (.inl rfl) hbehind (Nat.le_of_succ_le hroom) fun t ht hlast' =>
      (hnext t ht (hend hlast')).imp_right .inl
  refine ⟨hcomma, ?_, n, t, helement, hplain, ht, hend hlast', hmodule'.trans hmodule⟩
  rcases hopens with ⟨value, hkind⟩ | hkind <;> simp [Parser.isMarkOrEnd, hkind]

/-- **What is planned is legible.** -/
theorem legible {room : Nat} (hroom : ∀ place, (p.filling.put place).length + 5 ≤ room) :
    p.filling.Legible (grammar room) := by
  have hthree : 3 ≤ room := by
    have := hroom 0
    omega
  refine ⟨fun c s value hkind hcomma => ?_, fun {place call} howns hput hplace c s cs hat => ?_,
    fun {call id} howns hput harguments hid => ?_⟩
  · obtain ⟨limit, rfl⟩ : ∃ limit, room = limit + 3 := ⟨room - 3, by omega⟩
    exact ⟨_, Parser.element_string hkind (.inl hcomma), rfl⟩
  · obtain ⟨a, hcompletes, hwhere, htext, hnodes⟩ := put_of_owner? howns
    have hspace := hroom place
    rw [htext] at hat hspace ⊢
    rw [hnodes]
    cases hcompletes with
    | leads h hlength =>
      obtain ⟨ms, t, htakes, hplain, ht, hlast, hmodule⟩ := takes_leading h hat hspace
      exact ⟨ms, t, htakes, by rwa [← hplain, List.length_map] at hlength, hplain, ht, hlast,
        hmodule⟩
    | between =>
      obtain ⟨ms, t, htakes, hplain, ht, hlast, hmodule⟩ :=
        takes_leading leading_emptyArray hat hspace
      refine ⟨ms, t, htakes, ?_, hplain, ht, hlast, hmodule⟩
      rw [← List.length_map Node.plain, hplain]
      decide
    | follows hid harguments h =>
      -- such a place is neither behind a parenthesis nor behind a comma
      exfalso
      have hlt := h.lt
      simp only at hwhere
      rcases hplace with hplace | ⟨id', next, others, hsplit, -⟩
      · omega
      · rw [harguments] at hsplit
        cases hsplit
  · obtain ⟨a, hcompletes, hwhere, htext, hnodes⟩ := put_of_owner? howns
    have hspace := hroom id.span.stop
    rw [htext] at hspace
    cases hcompletes with
    | leads h hlength hshape =>
      rw [harguments] at hshape
      exact absurd (hshape.symm.trans hid) (by decide)
    | between hid' harguments' =>
      rw [harguments] at harguments'
      cases harguments'
    | follows hid' harguments' h =>
      rw [harguments] at harguments'
      cases harguments'
      refine ⟨h, fun c s cs hat hnext => ?_⟩
      rw [htext] at hat hnext ⊢
      rw [hnodes]
      obtain ⟨hcomma, hbegin, n, t, helement, hplain, ht⟩ := emptyArray_behind hspace hat hnext
      exact ⟨hcomma, hbegin, n, t, helement, by rw [hplain], ht⟩

end Plan

end AmdModules.Script
