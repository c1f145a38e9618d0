import AmdModules.Proofs.Normalize.Drift
import AmdModules.Proofs.Text.LineIndex

/-!
# The law of the detour

What a byte offset comes back as when it has gone through its line and column. Only the characters
in front of it on its own line matter: each of them counts as one byte, so the offset loses what
they have beyond that (`drift`). Hence it stays on its line, and comes back as it was exactly when
these characters are ASCII.

A step over any character moves the result on, also over a line feed, where an offset that came back
too small is followed by one that comes back exactly. So the detour keeps places apart and in their
order, and no stretch that normalizing takes through its positions is turned around.
-/

set_option autoImplicit false

namespace AmdModules

open Text

namespace Text

/-- What a text has behind its last line feed. -/
def lastLine (cs : List Char) : List Char :=
  (cs.reverse.takeWhile (· != '\n')).reverse

/-- How many bytes more than characters a text has. -/
def drift (cs : List Char) : Nat :=
  byteLength cs - cs.length

theorem lastLine_unlines (lines : List (List Char)) {last : List Char} (hlast : '\n' ∉ last) :
    lastLine (unlines lines ++ last) = last := by
  have hall : ∀ c ∈ last.reverse, (c != '\n') = true := by
    intro c hc
    rw [bne_iff_ne]
    rintro rfl
    exact hlast (List.mem_reverse.mp hc)
  rw [lastLine, List.reverse_append, List.takeWhile_append_of_pos hall]
  rcases unlines_cases lines with hnil | ⟨whole, hwhole⟩
  · simp [hnil]
  · simp [hwhole]

theorem byteLength_eq_length_iff {cs : List Char} : byteLength cs = cs.length ↔ IsAscii cs := by
  refine ⟨fun h => ?_, IsAscii.byteLength_eq⟩
  induction cs with
  | nil => simp [IsAscii]
  | cons c cs ih =>
    have hpos := c.utf8Size_pos
    have hle := length_le_byteLength cs
    rw [byteLength_cons, List.length_cons] at h
    have hone : c.utf8Size = 1 := by omega
    have hrest : IsAscii cs := ih (by omega)
    intro d hd
    rcases List.mem_cons.mp hd with rfl | hd
    · have hval : d.val ≤ 127 := Char.utf8Size_eq_one_iff.mp hone
      exact Nat.lt_succ_of_le (UInt32.le_iff_toNat_le.mp hval)
    · exact hrest d hd

end Text

section

variable {text cs ds : List Char} {offset : Nat}

/-- The detour of a place, by what stands in front of it on its line. -/
theorem throughPosition_lastLine (before after : List Char) :
    throughPosition (before ++ after) (byteLength before)
      = byteLength before - drift (lastLine before) := by
  obtain ⟨lines, last, rfl, hlines, hlast⟩ := exists_unlines before
  have hle := length_le_byteLength last
  rw [throughPosition_unlines hlines hlast, lastLine_unlines lines hlast, drift, byteLength_append]
  omega

/-- **The detour keeps places apart and in their order.** -/
theorem Text.From.throughPosition_lt {offset' : Nat} (h : From text offset cs)
    (h' : From text offset' ds) (hlt : offset < offset') :
    throughPosition text offset < throughPosition text offset' := by
  obtain ⟨between, rfl, rfl⟩ := h.sub h' (Nat.le_of_lt hlt)
  have hle := h.throughPosition_add_le
  have hne : between ≠ [] := by
    rintro rfl
    exact Nat.lt_irrefl _ hlt
  have hpos := List.length_pos_iff.mpr hne
  omega

end

/-! ## Stretches that are taken through their positions -/

namespace Normalize

open Script (Program Node)
open Loader (Call)

/-- What is searched for the marks of a call of `define`: what follows its name, and what stands
between its id and the argument behind it. -/
def searchedIn (call : Call) : List Span :=
  ⟨call.callee.stop, call.span.stop⟩ ::
    match call.arguments with
    | id :: next :: _ => if Loader.isString id then [⟨id.span.stop, next.span.start⟩] else []
    | _ => []

/-- The stretches of a program that normalizing takes through their positions: its comments, the
statements that may be removed, and what is searched in its calls of `define`. -/
def measured (program : Program) : List Span :=
  program.comments ++ (program.root.preorder.filter isUseStrict).map (·.span)
    ++ (Loader.definitions program.root).flatMap searchedIn

variable {text : List Char} {program : Program}

theorem searchedIn_ordered {s : Script.State} {call : Call} (h : Script.Seated text s call)
    (hstop : call.span.stop ≤ byteLength text) :
    ∀ x ∈ searchedIn call, x.start ≤ x.stop ∧ x.stop ≤ byteLength text := by
  intro x hx
  rcases List.mem_cons.mp hx with rfl | hx
  · obtain ⟨stop, hpassed, hle⟩ := h.opening
    have hlt := hpassed.lt (by decide)
    exact ⟨Nat.le_trans (Nat.le_of_lt hlt) hle, hstop⟩
  · split at hx
    · rename_i id next others harguments
      split at hx
      · rename_i hid
        obtain rfl := List.mem_singleton.mp hx
        obtain ⟨stop, hpassed, hle, hend⟩ := h.comma id next others harguments hid
        have hlt := hpassed.lt (by decide)
        exact ⟨Nat.le_trans (Nat.le_of_lt hlt) hle, hend⟩
      · cases hx
    · cases hx

/-- The tree of an accepted text has its stretches in the text, with their ends in order. -/
theorem measured_ordered (hparse : Script.parse MediaType.javaScript.dialect text = some program) :
    ∀ x ∈ measured program, x.start ≤ x.stop ∧ x.stop ≤ byteLength text := by
  obtain ⟨s, hs, hcomments, howned⟩ := Script.parse_owned rfl hparse
  have hend := hs.lastEnd_le_byteLength
  intro x hx
  rcases List.mem_append.mp hx with hx | hx
  · rcases List.mem_append.mp hx with hx | hx
    · rw [hcomments, List.mem_reverse] at hx
      have hhere := hs.from_here.le_byteLength
      exact ⟨hs.comments_ordered x hx, Nat.le_trans (hs.comments_le x hx) hhere⟩
    · obtain ⟨n, hn, rfl⟩ := List.mem_map.mp hx
      obtain ⟨hn, hstrict⟩ := List.mem_filter.mp hn
      obtain ⟨hle, hstop⟩ := isUseStrict_bounds howned hn hstrict
      exact ⟨hle, Nat.le_trans hstop hend⟩
  · obtain ⟨call, hcall, hx⟩ := List.mem_flatMap.mp hx
    obtain ⟨n, hn, hcall⟩ := List.mem_filterMap.mp hcall
    obtain ⟨hseated, hstop⟩ := settled_of_definition? howned hn hcall
    exact searchedIn_ordered hseated (Nat.le_trans hstop hend) x hx

end Normalize

/-- The end of the text is the furthest an offset can come back as. -/
theorem throughPosition_le_byteLength (text : List Char) (offset : Nat) :
    throughPosition text offset ≤ byteLength text := by
  obtain ⟨place, cs, hplace, -, -, heq⟩ := exists_place text offset
  rw [heq]
  exact Nat.le_trans hplace.throughPosition_le hplace.le_byteLength

/-- A stretch whose ends are in order is not turned around, and stays in the text. -/
theorem Span.throughPosition_ordered (text : List Char) {x : Span} (h : x.start ≤ x.stop) :
    (x.throughPosition text).start ≤ (x.throughPosition text).stop
      ∧ (x.throughPosition text).stop ≤ byteLength text :=
  ⟨throughPosition_mono text h, throughPosition_le_byteLength text x.stop⟩

/-- A position in a source is one in the text behind its mark, and leads back into that text. -/
theorem Position.offsetOf_ofSource? {source : List Char} {offset : Nat} {p : Position}
    (h : Position.ofSource? source offset = some p) :
    let text := Text.withoutByteOrderMark source
    offset ≤ byteLength text
      ∧ ((LineIndex.ofText text).offsetOf p).1 = throughPosition text offset
      ∧ ((LineIndex.ofText text).offsetOf p).1 ≤ byteLength text := by
  intro text
  obtain ⟨hle, rfl⟩ : offset ≤ byteLength text ∧ Position.ofOffset text offset = p := by
    simpa [Position.ofSource?, Position.ofOffset?] using h
  exact ⟨hle, rfl, throughPosition_le_byteLength text offset⟩

/-- **The law of the detour.** Whatever has been asked of an index before, a place of the text comes
back as what it was less the bytes that the characters in front of it on its line have beyond one.
So it comes back on its line, no later than it was, and as it was exactly when these characters are
ASCII. Places stay apart and in their order. A stretch whose ends are in order, wherever they fall,
is not turned around and stays in the text, and the stretches of an accepted text are such. -/
theorem detour_law (text : List Char) :
    (∀ before after, text = before ++ after → ∀ queries,
      let place := byteLength before
      let line := lastLine before
      let answer :=
        (((LineIndex.ofText text).askAll queries).offsetOf (Position.ofOffset text place)).1
      answer = throughPosition text place
        ∧ StartsLine text (before.count '\n') (place - byteLength line)
        ∧ answer = place - drift line
        ∧ answer ≤ place
        ∧ place - byteLength line ≤ answer
        ∧ (answer = place ↔ IsAscii line))
    ∧ (∀ place place' cs ds, From text place cs → From text place' ds → place < place' →
      throughPosition text place < throughPosition text place')
    ∧ (∀ x : Span, x.start ≤ x.stop → (x.throughPosition text).start ≤ (x.throughPosition text).stop
      ∧ (x.throughPosition text).stop ≤ byteLength text)
    ∧ ∀ program, Script.parse MediaType.javaScript.dialect text = some program →
      ∀ x ∈ Normalize.measured program, x.start ≤ x.stop ∧ x.stop ≤ byteLength text
        ∧ (x.throughPosition text).start ≤ (x.throughPosition text).stop
        ∧ (x.throughPosition text).stop ≤ byteLength text := by
  refine ⟨?_, fun _ _ _ _ h h' hlt => h.throughPosition_lt h' hlt,
    fun x hx => x.throughPosition_ordered text hx, fun program hparse x hx => ?_⟩
  · rintro before after rfl queries place line answer
    have hone : (LineIndex.ofText (before ++ after)).starts.size
        = min 1 ((before ++ after).count '\n' + 1) := (Nat.min_eq_left (Nat.succ_pos _)).symm
    have hindexes := ((LineIndex.Indexes.ofText (before ++ after)).askAll hone queries).1
    have hanswer : answer = throughPosition (before ++ after) place :=
      hindexes.offsetOf_eq (.ofText _) _
    have hlaw : answer = place - drift line :=
      hanswer.trans (throughPosition_lastLine before after)
    obtain ⟨lines, last, hbefore, hlines, hlast⟩ := exists_unlines before
    have hline : line = last := by
      rw [← lastLine_unlines lines hlast, ← hbefore]
    have hlength : place = byteLength (unlines lines) + byteLength line := by
      rw [hline, ← byteLength_append, ← hbefore]
    have hle := length_le_byteLength line
    have hdrift : drift line = byteLength line - line.length := rfl
    refine ⟨hanswer, ?_, hlaw, by omega, by omega, ?_⟩
    · have hstart := startsLine_unlines hlines (last ++ after)
      have hcount : before.count '\n' = lines.length := by
        rw [hbefore, List.count_append, count_unlines hlines, List.count_eq_zero_of_not_mem hlast]
        rfl
      rw [← List.append_assoc, ← hbefore, ← hcount] at hstart
      rwa [hlength, Nat.add_sub_cancel]
    · rw [← byteLength_eq_length_iff]
      omega
  · obtain ⟨hle, hstop⟩ := Normalize.measured_ordered hparse x hx
    exact ⟨hle, hstop, x.throughPosition_ordered text hle⟩

/-- A comment that ends behind a wide character: its end comes back a byte too small, and the next
line starts where it did, also when the index has been asked before. -/
theorem detour_law_wideComment :
    let before := "// é".toList
    let after := "\n// é".toList
    let text := before ++ after
    let asked := (LineIndex.ofText text).askAll [.startOf 2, .placeOf ⟨0, 3⟩]
    (asked.offsetOf (Position.ofOffset text (byteLength before))).1 = 4
      ∧ ¬IsAscii (lastLine before)
      ∧ throughPosition text 0 < throughPosition text (0 + byteLength before)
      ∧ (Span.throughPosition text ⟨3, 9⟩).start ≤ (Span.throughPosition text ⟨3, 9⟩).stop
      ∧ ∃ program, Script.parse MediaType.javaScript.dialect text = some program
        ∧ ∃ comment ∈ Normalize.measured program,
          (comment.throughPosition text).start ≤ (comment.throughPosition text).stop := by
  intro before after text asked
  obtain ⟨hplace, horder, hspan, htree⟩ := detour_law text
  obtain ⟨-, -, hanswer, -, -, hiff⟩ :=
    hplace before after rfl [.startOf 2, .placeOf ⟨0, 3⟩]
  have hfour : _ = 4 := hanswer.trans (by decide +kernel)
  refine ⟨hfour, ?_, ?_, (hspan ⟨3, 9⟩ (by decide)).1, ?_⟩
  · rw [← hiff, hfour]
    decide +kernel
  · have hstart := From.start text
    exact horder _ _ _ _ hstart hstart.append (by decide +kernel)
  · have haccepted : (Script.parse MediaType.javaScript.dialect text).isSome = true := by
      decide +kernel
    have hcomment : ⟨0, 5⟩ ∈ Normalize.measured (Option.get _ haccepted) := by
      revert haccepted
      decide +kernel
    have hparse := (Option.some_get haccepted).symm
    exact ⟨_, hparse, ⟨0, 5⟩, hcomment, (htree _ hparse _ hcomment).2.2.1⟩

end AmdModules
