import AmdModules.Proofs.Text.LineIndex

/-!
# Offsets and positions

What the detour of an offset over its position amounts to. A text in front of a place is some whole
lines and a last, unfinished one (`Text.exists_unlines`). The position of the place is the number of
those lines and the number of characters on the last; the line index gives back the bytes of the
whole lines exactly, and the characters of the last one as if each were a byte
(`throughPosition_unlines`).
-/

set_option autoImplicit false

namespace AmdModules

namespace Text

/-- Whole lines, each with its line feed. -/
def unlines (lines : List (List Char)) : List Char :=
  lines.flatMap (· ++ ['\n'])

@[simp] theorem unlines_nil : unlines [] = [] := rfl

@[simp] theorem unlines_cons (line : List Char) (lines : List (List Char)) :
    unlines (line :: lines) = line ++ '\n' :: unlines lines := by
  simp [unlines]

theorem unlines_append (lines lines' : List (List Char)) :
    unlines (lines ++ lines') = unlines lines ++ unlines lines' :=
  List.flatMap_append

theorem count_unlines {lines : List (List Char)} (h : ∀ line ∈ lines, '\n' ∉ line) :
    (unlines lines).count '\n' = lines.length := by
  induction lines with
  | nil => rfl
  | cons line lines ih =>
    obtain ⟨hline, hlines⟩ := List.forall_mem_cons.mp h
    rw [unlines_cons, List.count_append, List.count_eq_zero_of_not_mem hline, List.count_cons_self,
      ih hlines, Nat.zero_add, List.length_cons]

/-- Whole lines end in a line feed, if there are any. -/
theorem unlines_cases (lines : List (List Char)) :
    unlines lines = [] ∨ ∃ whole, unlines lines = whole ++ ['\n'] := by
  rcases List.eq_nil_or_concat lines with rfl | ⟨whole, line, rfl⟩
  · exact .inl rfl
  · refine .inr ⟨unlines whole ++ line, ?_⟩
    rw [List.concat_eq_append, unlines_append]
    simp

theorem startsLine_unlines {lines : List (List Char)} (h : ∀ line ∈ lines, '\n' ∉ line)
    (rest : List Char) :
    StartsLine (unlines lines ++ rest) lines.length (byteLength (unlines lines)) :=
  ⟨unlines lines, rest, rfl, rfl, count_unlines h, unlines_cases lines⟩

/-- Every text is some whole lines and a last one that has no end yet. -/
theorem exists_unlines (cs : List Char) :
    ∃ lines last, cs = unlines lines ++ last ∧ (∀ line ∈ lines, '\n' ∉ line) ∧ '\n' ∉ last := by
  induction cs with
  | nil => exact ⟨[], [], rfl, by simp, by simp⟩
  | cons c cs ih =>
    obtain ⟨lines, last, rfl, hlines, hlast⟩ := ih
    by_cases hc : c = '\n'
    · exact ⟨[] :: lines, last, by simp [hc], by simpa using hlines, hlast⟩
    · cases lines with
      | nil => exact ⟨[], c :: last, rfl, by simp, by simp [hlast, Ne.symm hc]⟩
      | cons line lines =>
        have hline := hlines line (by simp)
        refine ⟨(c :: line) :: lines, last, by simp, ?_, hlast⟩
        intro l hl
        rcases List.mem_cons.mp hl with rfl | hl
        · simp [hline, Ne.symm hc]
        · exact hlines l (by simp [hl])

end Text

open Text

/-! ## From offsets to positions -/

/-- The position behind one more character. -/
def Position.pass (p : Position) (c : Char) : Position :=
  if c = '\n' then ⟨p.line + 1, 0⟩ else ⟨p.line, p.character + 1⟩

theorem Position.walk_byteLength (p : Position) (before after : List Char) :
    p.walk (byteLength before) (before ++ after) = before.foldl Position.pass p := by
  induction before generalizing p with
  | nil =>
    cases after with
    | nil => rfl
    | cons c after => simp [Position.walk, c.utf8Size_pos]
  | cons c before ih =>
    rw [List.cons_append, byteLength_cons, Position.walk, if_neg (by omega),
      Nat.add_sub_cancel_left, ih]
    rfl

/-- Behind the end of the text the walk stops at its end. -/
theorem Position.walk_of_le {p : Position} {offset : Nat} {cs : List Char}
    (h : byteLength cs ≤ offset) : p.walk offset cs = p.walk (byteLength cs) cs := by
  induction cs generalizing p offset with
  | nil => rfl
  | cons c cs ih =>
    rw [byteLength_cons] at h ⊢
    have hstep : ¬ offset < c.utf8Size := by omega
    have hstep' : ¬ c.utf8Size + byteLength cs < c.utf8Size := by omega
    rw [Position.walk, Position.walk, if_neg hstep, if_neg hstep', Nat.add_sub_cancel_left,
      ih (by omega)]

theorem Position.foldl_pass_line {p : Position} {cs : List Char} (h : '\n' ∉ cs) :
    cs.foldl Position.pass p = ⟨p.line, p.character + cs.length⟩ := by
  induction cs generalizing p with
  | nil => rfl
  | cons c cs ih =>
    simp only [List.mem_cons, not_or] at h
    rw [List.foldl_cons, ih h.2]
    simp only [Position.pass, if_neg (Ne.symm h.1), List.length_cons, Position.mk.injEq, true_and]
    omega

theorem Position.foldl_pass_unlines {p : Position} {lines : List (List Char)}
    (h : ∀ line ∈ lines, '\n' ∉ line) (hp : p.character = 0) :
    (unlines lines).foldl Position.pass p = ⟨p.line + lines.length, 0⟩ := by
  induction lines generalizing p with
  | nil =>
    obtain ⟨line, character⟩ := p
    cases hp
    rfl
  | cons line lines ih =>
    rw [unlines_cons, List.foldl_append, List.foldl_cons,
      Position.foldl_pass_line (h line (by simp)), Position.pass, if_pos rfl,
      ih (fun l hl => h l (by simp [hl])) rfl]
    simp only [List.length_cons, Position.mk.injEq, and_true]
    omega

/-! ## From positions to offsets -/

/-- **The detour of an offset over its position.** The whole lines in front of the place keep their
bytes; on the last line every character counts as one. -/
theorem throughPosition_unlines {lines : List (List Char)} {last after : List Char}
    (hlines : ∀ line ∈ lines, '\n' ∉ line) (hlast : '\n' ∉ last) :
    throughPosition (unlines lines ++ last ++ after) (byteLength (unlines lines ++ last))
      = byteLength (unlines lines) + last.length := by
  have hposition : Position.ofOffset (unlines lines ++ last ++ after)
      (byteLength (unlines lines ++ last)) = ⟨lines.length, last.length⟩ := by
    rw [Position.ofOffset, Position.walk_byteLength, List.foldl_append,
      Position.foldl_pass_unlines hlines rfl, Position.foldl_pass_line hlast]
    simp
  have hindexes := LineIndex.Indexes.ofText (unlines lines ++ last ++ after)
  have hline := startsLine_unlines hlines (last ++ after)
  rw [← List.append_assoc] at hline
  have hsize := (hindexes.offsetOfLine (lines.length + 1)).1.size_eq
  have hle := length_le_byteLength last
  rw [throughPosition, hposition]
  simp only [LineIndex.offsetOf, hindexes.offsetOfLine_eq hline, hsize, byteLength_append]
  omega

/-- In an ASCII text every offset comes back as it was, one behind the end as the end. -/
theorem Text.IsAscii.throughPosition_eq {text : List Char} (h : IsAscii text) (offset : Nat) :
    throughPosition text offset = min offset (byteLength text) := by
  rcases Nat.le_total offset (byteLength text) with hle | hle
  · obtain ⟨before, after, rfl, rfl⟩ := h.exists_split hle
    obtain ⟨lines, last, rfl, hlines, hlast⟩ := exists_unlines before
    rw [throughPosition_unlines hlines hlast, Nat.min_eq_left hle, byteLength_append,
      h.of_append_left.of_append_right.byteLength_eq]
  · obtain ⟨lines, last, rfl, hlines, hlast⟩ := exists_unlines text
    have hend := @throughPosition_unlines lines last [] hlines hlast
    rw [List.append_nil] at hend
    rw [throughPosition, Position.ofOffset, Position.walk_of_le hle, Nat.min_eq_right hle]
    refine hend.trans ?_
    rw [byteLength_append, h.of_append_right.byteLength_eq]

theorem Text.IsAscii.throughPosition_of_le {text : List Char} (h : IsAscii text) {offset : Nat}
    (hle : offset ≤ byteLength text) : throughPosition text offset = offset := by
  rw [h.throughPosition_eq, Nat.min_eq_left hle]

/-! ## Drift -/

section

variable {text cs : List Char} {offset : Nat}

/-- One character further: a line feed brings an offset back in step, and any other character counts
as one byte. -/
theorem throughPosition_tail {c : Char} (h : From text offset (c :: cs)) :
    throughPosition text (offset + c.utf8Size)
      = if c = '\n' then offset + 1 else throughPosition text offset + 1 := by
  obtain ⟨before, rfl, rfl⟩ := h
  obtain ⟨lines, last, rfl, hlines, hlast⟩ := exists_unlines before
  by_cases hc : c = '\n'
  · have hlines' : ∀ line ∈ lines ++ [last], '\n' ∉ line := by
      intro line hline
      rcases List.mem_append.mp hline with hline | hline
      · exact hlines line hline
      · exact List.mem_singleton.mp hline ▸ hlast
    have hnext := @throughPosition_unlines (lines ++ [last]) [] cs hlines' (by simp)
    have hfeed : ('\n' : Char).utf8Size = 1 := by decide
    subst hc
    simp only [unlines_append, unlines_cons, unlines_nil, List.append_nil, byteLength_append,
      byteLength_cons, byteLength_nil, hfeed, List.length_nil, List.append_assoc,
      List.cons_append, List.nil_append] at hnext
    simp only [↓reduceIte, byteLength_append, hfeed, List.append_assoc]
    rw [Nat.add_assoc, hnext]
    omega
  · have hhere := @throughPosition_unlines lines last (c :: cs) hlines hlast
    have hlast' : '\n' ∉ last ++ [c] := by simp [hlast, Ne.symm hc]
    have hnext := @throughPosition_unlines lines (last ++ [c]) cs hlines hlast'
    rw [if_neg hc, hhere]
    simp only [byteLength_append, byteLength_cons, byteLength_nil, List.append_assoc,
      List.cons_append, List.nil_append, List.length_append, List.length_cons,
      List.length_nil, Nat.add_zero] at hnext ⊢
    rw [Nat.add_assoc, hnext]
    omega

theorem throughPosition_zero (text : List Char) : throughPosition text 0 = 0 :=
  @throughPosition_unlines [] [] text (by simp) (by simp)

/-- The detour leads to the front, never to the back. -/
theorem Text.From.throughPosition_le (h : From text offset cs) :
    throughPosition text offset ≤ offset := by
  obtain ⟨before, rfl, rfl⟩ := h
  obtain ⟨lines, last, rfl, hlines, hlast⟩ := exists_unlines before
  have hle := length_le_byteLength last
  rw [throughPosition_unlines hlines hlast, byteLength_append]
  omega

/-- Every character in between moves the result on. -/
theorem Text.From.throughPosition_add_le {between : List Char}
    (h : From text offset (between ++ cs)) :
    throughPosition text offset + between.length
      ≤ throughPosition text (offset + byteLength between) := by
  induction between generalizing offset with
  | nil => exact Nat.le_refl _
  | cons c between ih =>
    have hstep := throughPosition_tail h
    have hle := h.throughPosition_le
    have hrest := ih h.tail
    rw [byteLength_cons, List.length_cons, ← Nat.add_assoc offset]
    split at hstep
    · omega
    · omega

/-- An offset stands for the last place in front of it. -/
theorem Position.walk_place (p : Position) (offset : Nat) (cs : List Char) :
    ∃ before after, cs = before ++ after ∧ byteLength before ≤ offset
      ∧ (∀ c rest, after = c :: rest → offset < byteLength before + c.utf8Size)
      ∧ p.walk offset cs = p.walk (byteLength before) cs := by
  induction cs generalizing p offset with
  | nil => exact ⟨[], [], rfl, Nat.zero_le _, by simp, rfl⟩
  | cons c cs ih =>
    by_cases hlt : offset < c.utf8Size
    · refine ⟨[], c :: cs, rfl, Nat.zero_le _, ?_, ?_⟩
      · intro d rest heq
        cases heq
        simpa using hlt
      · simp [Position.walk, hlt, c.utf8Size_pos]
    · obtain ⟨before, after, rfl, hle, hnext, hwalk⟩ := ih
        (if c = '\n' then ⟨p.line + 1, 0⟩ else ⟨p.line, p.character + 1⟩) (offset - c.utf8Size)
      refine ⟨c :: before, after, rfl, ?_, fun d rest heq => ?_, ?_⟩
      · rw [byteLength_cons]
        omega
      · have := hnext d rest heq
        rw [byteLength_cons]
        omega
      · have hstep : ¬c.utf8Size + byteLength before < c.utf8Size := by omega
        rw [byteLength_cons, Position.walk, if_neg hlt, hwalk, Position.walk, if_neg hstep,
          Nat.add_sub_cancel_left]

theorem exists_place (text : List Char) (offset : Nat) :
    ∃ place cs, From text place cs ∧ place ≤ offset
      ∧ (∀ c rest, cs = c :: rest → offset < place + c.utf8Size)
      ∧ throughPosition text offset = throughPosition text place := by
  obtain ⟨before, after, htext, hle, hnext, hwalk⟩ := Position.walk_place ⟨0, 0⟩ offset text
  refine ⟨byteLength before, after, ⟨before, htext, rfl⟩, hle, hnext, ?_⟩
  simp only [throughPosition, Position.ofOffset, hwalk]

/-- **The detour keeps the order of offsets**, wherever they fall. -/
theorem throughPosition_mono (text : List Char) {a b : Nat} (h : a ≤ b) :
    throughPosition text a ≤ throughPosition text b := by
  obtain ⟨place, cs, hplace, hle, -, ha⟩ := exists_place text a
  obtain ⟨place', cs', hplace', -, hnext, hb⟩ := exists_place text b
  rw [ha, hb]
  have horder : place ≤ place' := by
    refine Nat.le_of_not_lt fun hlt => ?_
    obtain ⟨between, rfl, hlen⟩ := hplace'.sub hplace (Nat.le_of_lt hlt)
    cases between with
    | nil =>
      rw [byteLength_nil] at hlen
      omega
    | cons c between =>
      have := hnext c (between ++ cs) rfl
      rw [byteLength_cons] at hlen
      omega
  obtain ⟨between, rfl, rfl⟩ := hplace.sub hplace' horder
  exact Nat.le_trans (Nat.le_add_right _ _) hplace.throughPosition_add_le

/-- What comes back as it was is a place of the text. -/
theorem exists_from_of_throughPosition_eq (h : throughPosition text offset = offset) :
    ∃ cs, From text offset cs := by
  obtain ⟨place, cs, hplace, hle, -, heq⟩ := exists_place text offset
  have := hplace.throughPosition_le
  obtain rfl : place = offset := by omega
  exact ⟨cs, hplace⟩

/-- Along characters of one byte an offset that is in step stays so. -/
theorem throughPosition_run {as : List Char} (has : IsAscii as) (h : From text offset (as ++ cs))
    (hstart : throughPosition text offset = offset) :
    throughPosition text (offset + byteLength as) = offset + byteLength as := by
  induction as generalizing offset with
  | nil => exact hstart
  | cons a as ih =>
    have hsize := utf8Size_of_lt (has a (by simp))
    have hnext : throughPosition text (offset + a.utf8Size) = offset + a.utf8Size := by
      rw [throughPosition_tail h, hstart, hsize]
      split <;> rfl
    have hrest := ih (fun b hb => has b (by simp [hb])) h.tail hnext
    rw [byteLength_cons, ← Nat.add_assoc]
    exact hrest

end

/-! ## Stretches without drift -/

/-- Every offset of the stretch comes back as it was. -/
def Span.Steady (text : List Char) (s : Span) : Prop :=
  ∀ offset, s.start ≤ offset → offset ≤ s.stop → AmdModules.throughPosition text offset = offset

theorem Span.Steady.mono {text : List Char} {s s' : Span} (h : s.Steady text)
    (hstart : s.start ≤ s'.start) (hstop : s'.stop ≤ s.stop) : s'.Steady text :=
  fun offset hge hle => h offset (Nat.le_trans hstart hge) (Nat.le_trans hle hstop)

/-- Whether the characters of a stretch take one byte each, and so do those in front of it on its
line. -/
def Span.clear (text : List Char) (s : Span) : Bool :=
  match splitAt? s.start text with
  | none => false
  | some (before, after) =>
    match splitAt? (s.stop - s.start) after with
    | none => false
    | some (inside, _) =>
      s.start ≤ s.stop && (before.reverse.takeWhile (· != '\n') ++ inside).all (·.toNat < 128)

/-- A text is what stands up to its last line feed, and the characters behind that. -/
theorem Text.exists_lastLine (cs : List Char) :
    ∃ above, cs = above ++ (cs.reverse.takeWhile (· != '\n')).reverse
      ∧ (above = [] ∨ ∃ above', above = above' ++ ['\n']) := by
  refine ⟨(cs.reverse.dropWhile (· != '\n')).reverse, ?_, ?_⟩
  · rw [← List.reverse_append, List.takeWhile_append_dropWhile, List.reverse_reverse]
  · cases hdrop : cs.reverse.dropWhile (· != '\n') with
    | nil => exact .inl rfl
    | cons c rest =>
      have hhead := List.head?_dropWhile_not (· != '\n') cs.reverse
      have hc : c = '\n' := by simpa [hdrop] using hhead
      exact .inr ⟨rest.reverse, by simp [hc]⟩

/-- The start of a line comes back as it was. -/
theorem throughPosition_lineStart {above : List Char} (cs : List Char)
    (h : above = [] ∨ ∃ above', above = above' ++ ['\n']) :
    throughPosition (above ++ cs) (byteLength above) = byteLength above := by
  rcases h with rfl | ⟨above, rfl⟩
  · exact throughPosition_zero _
  · have hfeed : From (above ++ ['\n'] ++ cs) (byteLength above) ('\n' :: cs) :=
      ⟨above, by simp, rfl⟩
    have hsize : ('\n' : Char).utf8Size = 1 := by decide
    simpa [hsize] using throughPosition_tail hfeed

/-- **Where all characters take one byte nothing drifts.** -/
theorem steady_of_clear {text : List Char} {s : Span} (h : s.clear text = true) :
    s.Steady text := by
  unfold Span.clear at h
  split at h
  · cases h
  · rename_i before after hstart
    split at h
    · cases h
    · rename_i inside behind hstop
      obtain ⟨rfl, hbefore⟩ := splitAt?_eq_some hstart
      obtain ⟨rfl, hinside⟩ := splitAt?_eq_some hstop
      obtain ⟨above, habove, hfeed⟩ := exists_lastLine before
      generalize before.reverse.takeWhile (· != '\n') = line at h habove
      subst habove
      obtain ⟨hle, hline, hascii⟩ : s.start ≤ s.stop ∧ IsAscii line ∧ IsAscii inside := by
        simpa [IsAscii] using h
      intro offset hge hlt
      -- the characters from the start of the line to the offset
      obtain ⟨passed, left, rfl, hpassed⟩ := hascii.exists_split (n := offset - s.start) (by omega)
      have hrun : From (above ++ line.reverse ++ ((passed ++ left) ++ behind)) (byteLength above)
          ((line.reverse ++ passed) ++ (left ++ behind)) := ⟨above, by simp, rfl⟩
      have hall : IsAscii (line.reverse ++ passed) := by
        intro c hc
        rcases List.mem_append.mp hc with hc | hc
        · exact hline c (List.mem_reverse.mp hc)
        · exact hascii.of_append_left c hc
      have hhere : byteLength above + byteLength (line.reverse ++ passed) = offset := by
        simp only [byteLength_append] at hbefore ⊢
        omega
      rw [← hhere]
      refine throughPosition_run hall hrun ?_
      rw [List.append_assoc]
      exact throughPosition_lineStart _ hfeed

theorem Text.IsAscii.steady {text : List Char} (h : IsAscii text) {s : Span}
    (hle : s.stop ≤ byteLength text) : s.Steady text :=
  fun _ _ hstop => h.throughPosition_of_le (Nat.le_trans hstop hle)

end AmdModules
