import AmdModules.Proofs.Text.Bytes
import AmdModules.Text.Lines

/-!
# What a line index knows

The index finds line starts only as far as it is asked and keeps what it found. Nobody who asks it
can tell what has been asked before: every answer is a function of the text
(`LineIndex.answers_exact`).

What makes this true is `LineIndex.Indexes`: the starts that have been found, and those that stand
behind the line feeds of what has not been searched, are together all line starts of the text. A
turn of the search moves one start from the second part to the first. How many have been found is
then all there is to know about the past.
-/

set_option autoImplicit false

namespace AmdModules

namespace Text

/-! ## Line starts -/

/-- The line with `feeds` line feeds in front of it starts at byte `offset`. -/
def StartsLine (text : List Char) (feeds offset : Nat) : Prop :=
  ∃ above below, text = above ++ below ∧ byteLength above = offset ∧ above.count '\n' = feeds
    ∧ (above = [] ∨ ∃ whole, above = whole ++ ['\n'])

/-- The places right behind the line feeds of a text that begins at byte `offset`. -/
def feedEnds (offset : Nat) : List Char → List Nat
  | [] => []
  | c :: cs =>
    if c = '\n' then (offset + 1) :: feedEnds (offset + 1) cs
    else feedEnds (offset + c.utf8Size) cs

/-- The starts of all lines of a text. -/
def lineStarts (text : List Char) : List Nat :=
  0 :: feedEnds 0 text

theorem feedEnds_append (offset : Nat) (as bs : List Char) :
    feedEnds offset (as ++ bs) = feedEnds offset as ++ feedEnds (offset + byteLength as) bs := by
  induction as generalizing offset with
  | nil => rfl
  | cons a as ih =>
    have hfeed : ('\n' : Char).utf8Size = 1 := by decide
    rw [List.cons_append, feedEnds, feedEnds, byteLength_cons, ← Nat.add_assoc]
    split
    · rename_i ha
      rw [ih, ha, hfeed, List.cons_append]
    · rw [ih]

theorem feedEnds_of_not_mem {cs : List Char} (h : '\n' ∉ cs) (offset : Nat) :
    feedEnds offset cs = [] := by
  induction cs generalizing offset with
  | nil => rfl
  | cons c cs ih =>
    simp only [List.mem_cons, not_or] at h
    rw [feedEnds, if_neg (Ne.symm h.1), ih h.2]

theorem feedEnds_line {line : List Char} (h : '\n' ∉ line) (offset : Nat) (rest : List Char) :
    feedEnds offset (line ++ '\n' :: rest)
      = (offset + (byteLength line + 1)) :: feedEnds (offset + (byteLength line + 1)) rest := by
  rw [feedEnds_append, feedEnds_of_not_mem h, feedEnds, if_pos rfl, List.nil_append, Nat.add_assoc]

@[simp] theorem length_feedEnds (offset : Nat) (cs : List Char) :
    (feedEnds offset cs).length = cs.count '\n' := by
  induction cs generalizing offset with
  | nil => rfl
  | cons c cs ih =>
    by_cases hc : c = '\n'
    · simp [feedEnds, hc, ih]
    · simp [feedEnds, hc, ih]

@[simp] theorem length_lineStarts (text : List Char) :
    (lineStarts text).length = text.count '\n' + 1 := by
  simp [lineStarts]

theorem lt_of_mem_feedEnds {offset place : Nat} {cs : List Char} (h : place ∈ feedEnds offset cs) :
    offset < place := by
  induction cs generalizing offset with
  | nil => cases h
  | cons c cs ih =>
    rw [feedEnds] at h
    split at h
    · rcases List.mem_cons.mp h with rfl | h
      · exact Nat.lt_succ_self offset
      · exact Nat.lt_of_succ_lt (ih h)
    · have := ih h
      omega

theorem pairwise_feedEnds (offset : Nat) (cs : List Char) :
    (feedEnds offset cs).Pairwise (· < ·) := by
  induction cs generalizing offset with
  | nil => exact .nil
  | cons c cs ih =>
    rw [feedEnds]
    split
    · exact .cons (fun place hplace => lt_of_mem_feedEnds hplace) (ih _)
    · exact ih _

theorem pairwise_lineStarts (text : List Char) : (lineStarts text).Pairwise (· < ·) :=
  .cons (fun _ hplace => lt_of_mem_feedEnds hplace) (pairwise_feedEnds 0 text)

/-- What stands at each place of the list: a line feed in front, and as many as there are places
before it. -/
theorem feedEnds_getElem? {offset feeds place : Nat} {cs : List Char}
    (h : (feedEnds offset cs)[feeds]? = some place) :
    ∃ above below, cs = above ++ '\n' :: below ∧ above.count '\n' = feeds
      ∧ place = offset + byteLength above + 1 := by
  induction cs generalizing offset feeds with
  | nil => simp [feedEnds] at h
  | cons c cs ih =>
    rw [feedEnds] at h
    split at h
    · rename_i hc
      cases feeds with
      | zero =>
        obtain rfl : offset + 1 = place := by simpa using h
        exact ⟨[], cs, by rw [hc]; rfl, rfl, rfl⟩
      | succ feeds =>
        rw [List.getElem?_cons_succ] at h
        obtain ⟨above, below, rfl, hcount, rfl⟩ := ih h
        have hfeed : ('\n' : Char).utf8Size = 1 := by decide
        refine ⟨c :: above, below, rfl, by simp [hc, hcount], ?_⟩
        rw [byteLength_cons, hc, hfeed]
        omega
    · rename_i hc
      obtain ⟨above, below, rfl, hcount, rfl⟩ := ih h
      refine ⟨c :: above, below, rfl, by simp [hc, hcount], ?_⟩
      rw [byteLength_cons]
      omega

/-- **The list of line starts lists the line starts**, each at its place. -/
theorem getElem?_lineStarts_iff {text : List Char} {feeds offset : Nat} :
    (lineStarts text)[feeds]? = some offset ↔ StartsLine text feeds offset := by
  have hfeed : ('\n' : Char).utf8Size = 1 := by decide
  constructor
  · intro h
    cases feeds with
    | zero =>
      obtain rfl : 0 = offset := by simpa [lineStarts] using h
      exact ⟨[], text, rfl, rfl, rfl, .inl rfl⟩
    | succ feeds =>
      rw [lineStarts, List.getElem?_cons_succ] at h
      obtain ⟨above, below, rfl, hcount, rfl⟩ := feedEnds_getElem? h
      refine ⟨above ++ ['\n'], below, by simp, ?_, by simp [hcount], .inr ⟨above, rfl⟩⟩
      rw [byteLength_append, byteLength_cons, byteLength_nil, hfeed]
      omega
  · rintro ⟨above, below, rfl, rfl, rfl, rfl | ⟨whole, rfl⟩⟩
    · rfl
    · rw [List.append_assoc, List.count_append, lineStarts, feedEnds_append]
      simp [feedEnds, hfeed]

end Text

open Text

/-! ## The search -/

namespace LineIndex

theorem breakLine?_eq_some {cs after : List Char} {bytes : Nat}
    (h : breakLine? cs = some (bytes, after)) :
    ∃ line, '\n' ∉ line ∧ cs = line ++ '\n' :: after ∧ bytes = byteLength line + 1 := by
  induction cs generalizing bytes with
  | nil => cases h
  | cons c cs ih =>
    rw [breakLine?] at h
    split at h
    · rename_i hc
      cases h
      exact ⟨[], by simp, by rw [hc]; rfl, rfl⟩
    · rename_i hc
      obtain ⟨⟨bytes', after'⟩, hbreak, heq⟩ := Option.map_eq_some_iff.mp h
      cases heq
      obtain ⟨line, hline, rfl, rfl⟩ := ih hbreak
      refine ⟨c :: line, by simp [hline, Ne.symm hc], rfl, ?_⟩
      rw [byteLength_cons]
      omega

theorem breakLine?_eq_none {cs : List Char} (h : breakLine? cs = none) : '\n' ∉ cs := by
  induction cs with
  | nil => simp
  | cons c cs ih =>
    rw [breakLine?] at h
    split at h
    · cases h
    · rename_i hc
      have hrest := ih (Option.map_eq_none_iff.mp h)
      simp [hrest, Ne.symm hc]

/-- The index belongs to the text: it stands at a place of it, and what it has found and what is
still ahead are the line starts of the text. -/
structure Indexes (text : List Char) (index : LineIndex) : Prop where
  size_eq : index.size = byteLength text
  from_rest : From text index.scanned index.rest
  starts_eq : index.starts.toList ++ feedEnds index.scanned index.rest = lineStarts text
  starts_pos : 0 < index.starts.size

namespace Indexes

variable {text : List Char} {index : LineIndex}

theorem ofText (text : List Char) : (LineIndex.ofText text).Indexes text :=
  ⟨rfl, .start text, rfl, Nat.one_pos⟩

/-- What has been found are the first line starts. -/
theorem isPrefix (h : index.Indexes text) : index.starts.toList <+: lineStarts text :=
  ⟨_, h.starts_eq⟩

theorem size_le (h : index.Indexes text) : index.starts.size ≤ text.count '\n' + 1 := by
  have hle := h.isPrefix.length_le
  rwa [Array.length_toList, length_lineStarts] at hle

theorem getElem?_eq (h : index.Indexes text) {feeds : Nat} (hlt : feeds < index.starts.size) :
    index.starts[feeds]? = (lineStarts text)[feeds]? := by
  have hlt' : feeds < index.starts.toList.length := by rwa [Array.length_toList]
  rw [← h.starts_eq, List.getElem?_append_left hlt', Array.getElem?_toList]

/-- Where nothing is left to search, all line starts have been found. -/
theorem size_of_rest (h : index.Indexes text) (hrest : index.rest = []) :
    index.starts.size = text.count '\n' + 1 := by
  have heq := h.starts_eq
  rw [hrest, feedEnds, List.append_nil] at heq
  rw [← length_lineStarts, ← heq, Array.length_toList]

theorem scanned_of_rest (h : index.Indexes text) (hrest : index.rest = []) :
    index.scanned = byteLength text := by
  obtain ⟨before, htext, hbefore⟩ := h.from_rest
  rw [htext, hrest, List.append_nil, hbefore]

/-- A turn of the search that finds a line feed. -/
theorem found (h : index.Indexes text) {bytes : Nat} {after : List Char}
    (hbreak : breakLine? index.rest = some (bytes, after)) :
    Indexes text { index with
      starts := index.starts.push (index.scanned + bytes)
      scanned := index.scanned + bytes
      rest := after } := by
  obtain ⟨line, hline, hrest, rfl⟩ := breakLine?_eq_some hbreak
  have hfeed : ('\n' : Char).utf8Size = 1 := by decide
  have hplace := h.from_rest
  have hstarts := h.starts_eq
  rw [hrest] at hplace hstarts
  rw [feedEnds_line hline] at hstarts
  refine ⟨h.size_eq, ?_, ?_, ?_⟩
  · have hbehind := hplace.append.tail
    rwa [hfeed, Nat.add_assoc] at hbehind
  · simpa using hstarts
  · simp

/-- A turn of the search that comes to the end of the text. -/
theorem ended (h : index.Indexes text) (hbreak : breakLine? index.rest = none) :
    Indexes text { index with scanned := index.size, rest := [] } := by
  have hstarts := h.starts_eq
  rw [feedEnds_of_not_mem (breakLine?_eq_none hbreak)] at hstarts
  exact ⟨h.size_eq, ⟨text, by simp, h.size_eq.symm⟩, hstarts, h.starts_pos⟩

/-- **What a search for more line starts does.** It finds as many as it was to find, or comes to the
end of the text and has found all there are. -/
theorem grow (h : index.Indexes text) (missing : Nat) :
    (index.grow missing).Indexes text
      ∧ (index.grow missing).starts.size = min (index.starts.size + missing) (text.count '\n' + 1)
      ∧ (index.starts.size + missing ≤ (index.grow missing).starts.size
        ∨ (index.grow missing).rest = []) := by
  induction missing generalizing index with
  | zero =>
    have hle := h.size_le
    refine ⟨h, ?_, .inl (Nat.le_refl _)⟩
    rw [LineIndex.grow]
    omega
  | succ missing ih =>
    cases hrest : index.rest with
    | nil =>
      have hsize := h.size_of_rest hrest
      have hgrow : index.grow (missing + 1) = index := by rw [LineIndex.grow, hrest]
      rw [hgrow]
      refine ⟨h, ?_, .inr hrest⟩
      omega
    | cons c cs =>
      cases hbreak : breakLine? (c :: cs) with
      | none =>
        have hend := h.ended (hrest ▸ hbreak)
        have hsize : index.starts.size = text.count '\n' + 1 := hend.size_of_rest rfl
        have hgrow : index.grow (missing + 1)
            = { index with scanned := index.size, rest := [] } := by
          rw [LineIndex.grow, hrest]
          simp only [hbreak]
        rw [hgrow]
        refine ⟨hend, ?_, .inr rfl⟩
        dsimp only
        omega
      | some piece =>
        obtain ⟨bytes, after⟩ := piece
        obtain ⟨hindexes, hsize, hend⟩ := ih (h.found (hrest ▸ hbreak))
        rw [Array.size_push] at hsize hend
        rw [LineIndex.grow, hrest]
        simp only [hbreak]
        refine ⟨hindexes, ?_, ?_⟩
        · rw [hsize]
          omega
        · rwa [Nat.add_assoc, Nat.add_comm 1] at hend

/-- **What a question for a line does.** The line's start is answered, that of the last line for
lines behind it; starts are found up to that line, if there are so many. The search ends because
the line has been reached or the text has. -/
theorem offsetOfLine (h : index.Indexes text) (line : Nat) :
    (index.offsetOfLine line).2.Indexes text
      ∧ (index.offsetOfLine line).2.starts.size
        = min (max index.starts.size line) (text.count '\n' + 1)
      ∧ (line ≤ (index.offsetOfLine line).2.starts.size
        ∨ (index.offsetOfLine line).2.scanned = byteLength text)
      ∧ (lineStarts text)[min (line - 1) (text.count '\n')]?
        = some (index.offsetOfLine line).1 := by
  obtain ⟨hindexes, hsize, hend⟩ := h.grow (line - 1 + 1 - index.starts.size)
  have hpos := h.starts_pos
  have hfound := hindexes.starts_pos
  have hmax : index.starts.size + (line - 1 + 1 - index.starts.size)
      = max index.starts.size line := by omega
  rw [hmax] at hsize hend
  refine ⟨hindexes, hsize, ?_, ?_⟩
  · rcases hend with hreached | hrest
    · exact .inl (Nat.le_trans (Nat.le_max_right _ _) hreached)
    · exact .inr (hindexes.scanned_of_rest hrest)
  · simp only [LineIndex.offsetOfLine]
    generalize index.grow (line - 1 + 1 - index.starts.size) = index' at hindexes hsize hfound ⊢
    rw [Array.getD_eq_getD_getElem?, Array.getD_eq_getD_getElem?]
    rcases Nat.lt_or_ge (line - 1) index'.starts.size with hlt | hge
    · have hmin : min (line - 1) (text.count '\n') = line - 1 := by omega
      rw [hmin, ← hindexes.getElem?_eq hlt, Array.getElem?_eq_getElem hlt]
      rfl
    · -- fewer than asked for: the last one that was found is the last one there is
      have hmin : min (line - 1) (text.count '\n') = index'.starts.size - 1 := by omega
      have hlast : index'.starts.size - 1 < index'.starts.size := by omega
      rw [hmin, ← hindexes.getElem?_eq hlast, Array.getElem?_eq_getElem hlast,
        Array.getElem?_eq_none hge]
      rfl

/-- Where a line of the text starts is answered, whatever has been found. -/
theorem offsetOfLine_eq (h : index.Indexes text) {feeds start : Nat}
    (hstart : StartsLine text feeds start) : (index.offsetOfLine (feeds + 1)).1 = start := by
  obtain ⟨-, -, -, hanswer⟩ := h.offsetOfLine (feeds + 1)
  have hlisted := getElem?_lineStarts_iff.mpr hstart
  have hlt := (List.getElem?_eq_some_iff.mp hlisted).1
  rw [length_lineStarts] at hlt
  rw [Nat.add_sub_cancel, Nat.min_eq_left (Nat.le_of_lt_succ hlt), hlisted] at hanswer
  exact (Option.some.inj hanswer).symm

end Indexes

end LineIndex

/-! ## Questions in any order -/

/-- A question to a line index. -/
inductive LineQuery where
  /-- Where a line starts, lines counted from one. -/
  | startOf (line : Nat)
  /-- Where a position is. -/
  | placeOf (p : Position)

namespace LineQuery

/-- The line whose start has to be known. -/
def line : LineQuery → Nat
  | startOf line => line
  | placeOf p => p.line + 1

/-- What the text says to a question. A line behind the last one is read as the last one. -/
def Answered (text : List Char) (answer : Nat) : LineQuery → Prop
  | startOf line => StartsLine text (min (line - 1) (text.count '\n')) answer
  | placeOf p => ∃ start, StartsLine text (min p.line (text.count '\n')) start
      ∧ answer = min (start + p.character) (byteLength text)

/-- The furthest line that some questions ask for; the first line is known without a question. -/
def furthest (queries : List LineQuery) : Nat :=
  queries.foldl (fun line q => max line q.line) 1

end LineQuery

namespace LineIndex

/-- Asks a question. -/
def ask (index : LineIndex) : LineQuery → Nat × LineIndex
  | .startOf line => index.offsetOfLine line
  | .placeOf p => index.offsetOf p

/-- The index after some questions. -/
def askAll (index : LineIndex) (queries : List LineQuery) : LineIndex :=
  queries.foldl (fun index q => (index.ask q).2) index

variable {text : List Char} {index : LineIndex}

/-- **A question is answered from the text**, whatever has been found before, and what is found on
the way are the starts up to the line asked for. -/
theorem Indexes.ask (h : index.Indexes text) (q : LineQuery) :
    (index.ask q).2.Indexes text
      ∧ (index.ask q).2.starts.size = min (max index.starts.size q.line) (text.count '\n' + 1)
      ∧ (q.line ≤ (index.ask q).2.starts.size ∨ (index.ask q).2.scanned = byteLength text)
      ∧ q.Answered text (index.ask q).1 := by
  cases q with
  | startOf line =>
    obtain ⟨hindexes, hsize, hend, hanswer⟩ := h.offsetOfLine line
    exact ⟨hindexes, hsize, hend, getElem?_lineStarts_iff.mp hanswer⟩
  | placeOf p =>
    obtain ⟨hindexes, hsize, hend, hanswer⟩ := h.offsetOfLine (p.line + 1)
    refine ⟨hindexes, hsize, hend, (index.offsetOfLine (p.line + 1)).1,
      getElem?_lineStarts_iff.mp hanswer, ?_⟩
    simp only [LineIndex.ask, offsetOf, hindexes.size_eq]

/-- A run of questions that goes on from where starts up to the line `asked` have been found. -/
theorem Indexes.askAll (h : index.Indexes text) {asked : Nat}
    (hasked : index.starts.size = min asked (text.count '\n' + 1)) (queries : List LineQuery) :
    (index.askAll queries).Indexes text
      ∧ (index.askAll queries).starts.size
        = min (queries.foldl (fun line q => max line q.line) asked) (text.count '\n' + 1) := by
  induction queries generalizing index asked with
  | nil => exact ⟨h, hasked⟩
  | cons q queries ih =>
    obtain ⟨hindexes, hsize, -, -⟩ := h.ask q
    refine ih hindexes ?_
    change _ = min (max asked q.line) _
    rw [hsize, hasked]
    omega

/-- Two indices of one text answer alike, whatever they have found. -/
theorem Indexes.offsetOf_eq {index' : LineIndex} (h : index.Indexes text)
    (h' : index'.Indexes text) (p : Position) : (index.offsetOf p).1 = (index'.offsetOf p).1 := by
  obtain ⟨hindexes, -, -, hanswer⟩ := h.offsetOfLine (p.line + 1)
  obtain ⟨hindexes', -, -, hanswer'⟩ := h'.offsetOfLine (p.line + 1)
  have hstart : (index.offsetOfLine (p.line + 1)).1 = (index'.offsetOfLine (p.line + 1)).1 :=
    Option.some.inj (hanswer.symm.trans hanswer')
  simp only [offsetOf, hstart, hindexes.size_eq, hindexes'.size_eq]

/-- **A line index answers from its text alone.** Whatever has been asked before, the next question
gets the answer the text gives. What has been found is the beginning of the list of line starts, up
to the furthest line asked for; what has not been searched is the text from a place on, and a search
ends only because it reached its line or the end of the text. -/
theorem answers_exact (text : List Char) (queries : List LineQuery) (q : LineQuery) :
    let index := (ofText text).askAll queries
    q.Answered text (index.ask q).1
      ∧ index.starts.toList.head? = some 0
      ∧ index.starts.toList.Pairwise (· < ·)
      ∧ index.starts.toList <+: lineStarts text
      ∧ (∀ feeds offset, (lineStarts text)[feeds]? = some offset ↔ StartsLine text feeds offset)
      ∧ index.starts.size = min (text.count '\n' + 1) (LineQuery.furthest queries)
      ∧ (∃ before, splitAt? index.scanned text = some (before, index.rest))
      ∧ (q.line ≤ (index.ask q).2.starts.size
        ∨ (index.ask q).2.scanned = byteLength text) := by
  intro index
  have hone : (ofText text).starts.size = min 1 (text.count '\n' + 1) :=
    (Nat.min_eq_left (Nat.succ_pos _)).symm
  obtain ⟨h, hsize⟩ := (Indexes.ofText text).askAll hone queries
  obtain ⟨-, -, hend, hanswer⟩ := h.ask q
  have hfirst : index.starts.toList.head? = some 0 := by
    rw [List.head?_eq_getElem?, Array.getElem?_toList, h.getElem?_eq h.starts_pos]
    rfl
  exact ⟨hanswer, hfirst, (pairwise_lineStarts text).sublist h.isPrefix.sublist, h.isPrefix,
    fun _ _ => getElem?_lineStarts_iff, hsize.trans (Nat.min_comm _ _), h.from_rest.splitAt?, hend⟩

/-- Lines are found as they are asked for, and not again. -/
example :
    let index := (ofText "a\né\nb".toList).askAll [.startOf 2, .placeOf ⟨0, 9⟩]
    index.starts = #[0, 2] ∧ (index.ask (.startOf 7)).1 = 5
      ∧ (index.ask (.placeOf ⟨1, 1⟩)).1 = 3 := by
  decide

end LineIndex

end AmdModules
