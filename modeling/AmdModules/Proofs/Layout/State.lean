import AmdModules.Proofs.Script.Token
import AmdModules.Script.Parser.Basic

/-!
# Where the parser stands

A state of the parser is tied to the text it reads: the token it looks at is the first one behind
the last token read, and its comments are those met on the way (`State.On`). `Reaches` is what one
run of a parser does to a state: it moves on in the text and adds comments that start behind the
place it came from.

`Passed` says of a place that the parser went on from there with a given mark. It remembers the
comments between the place and the mark, so that later a search which leaves comments out can be
shown to find that mark and no other.
-/

set_option autoImplicit false

namespace AmdModules.Script

open Text

/-- The parser looks at the first token behind `lastEnd`. `lineEnded` is how the reading started. -/
def State.Reads (text : List Char) (lineEnded : Bool) (s : State) : Prop :=
  ∃ cs earlier, From text s.lastEnd cs ∧ s.reading = readToken lineEnded earlier s.lastEnd cs
    ∧ ∀ k ∈ earlier, k.start ≤ k.stop ∧ k.stop ≤ s.lastEnd

/-- The parser stands in the text. -/
def State.On (text : List Char) (s : State) : Prop :=
  ∃ lineEnded, s.Reads text lineEnded

theorem State.Reads.on {text : List Char} {lineEnded : Bool} {s : State}
    (h : s.Reads text lineEnded) : s.On text :=
  ⟨lineEnded, h⟩

namespace State.On

variable {text : List Char} {s : State}

theorem cuts (h : s.On text) : ∃ cs, From text s.lastEnd cs ∧ s.reading.Cuts s.lastEnd cs := by
  obtain ⟨lineEnded, cs, earlier, hcs, hreading, -⟩ := h
  exact ⟨cs, hcs, hreading ▸ readToken_cuts lineEnded earlier s.lastEnd cs⟩

theorem lastEnd_le (h : s.On text) : s.lastEnd ≤ s.reading.token.span.start := by
  obtain ⟨cs, -, hcuts⟩ := h.cuts
  exact hcuts.le_start

theorem start_le (h : s.On text) : s.reading.token.span.start ≤ s.reading.hereOffset := by
  obtain ⟨cs, -, hcuts⟩ := h.cuts
  exact hcuts.start_le

theorem here_le (h : s.On text) : s.reading.hereOffset ≤ s.reading.token.span.stop := by
  obtain ⟨cs, -, hcuts⟩ := h.cuts
  exact hcuts.here_le

theorem start_le_stop (h : s.On text) :
    s.reading.token.span.start ≤ s.reading.token.span.stop :=
  Nat.le_trans h.start_le h.here_le

theorem from_here (h : s.On text) : From text s.reading.hereOffset s.reading.here := by
  obtain ⟨cs, hcs, hcuts⟩ := h.cuts
  exact hcuts.from_here hcs

theorem from_rest (h : s.On text) : From text s.reading.token.span.stop s.reading.rest := by
  obtain ⟨cs, hcs, hcuts⟩ := h.cuts
  exact hcuts.from_rest hcs

theorem lastEnd_le_byteLength (h : s.On text) : s.lastEnd ≤ byteLength text := by
  obtain ⟨cs, hcs, -⟩ := h.cuts
  exact hcs.le_byteLength

theorem comments_le (h : s.On text) : ∀ k ∈ s.reading.comments, k.stop ≤ s.reading.hereOffset := by
  obtain ⟨lineEnded, cs, earlier, -, hreading, hearlier⟩ := h
  have hcuts := readToken_cuts lineEnded earlier s.lastEnd cs
  have hle := hcuts.le_start
  have hle' := hcuts.start_le
  rw [hreading]
  intro k hk
  rw [readToken_append] at hk hle hle' ⊢
  rcases List.mem_append.mp hk with hk | hk
  · exact (readToken_comments hk).2
  · have := (hearlier k hk).2
    simp only at hle hle' ⊢
    omega

/-- No comment runs backwards. -/
theorem comments_ordered (h : s.On text) : ∀ k ∈ s.reading.comments, k.start ≤ k.stop := by
  obtain ⟨lineEnded, cs, earlier, -, hreading, hearlier⟩ := h
  rw [hreading]
  exact start_le_stop_of_mem_readToken fun k hk => (hearlier k hk).1

/-- A mark is spelled where the parser stands. -/
theorem here_of_mark (h : s.On text) {m : String} (hmark : s.reading.token.kind = .mark m) :
    s.reading.here = m.toList ++ s.reading.rest := by
  obtain ⟨lineEnded, cs, earlier, -, hreading, -⟩ := h
  rw [hreading] at hmark ⊢
  exact (readToken_mark hmark).1

theorem stop_of_mark (h : s.On text) {m : String} (hmark : s.reading.token.kind = .mark m) :
    s.reading.token.span.stop = s.reading.hereOffset + byteLength m.toList := by
  obtain ⟨lineEnded, cs, earlier, -, hreading, -⟩ := h
  rw [hreading] at hmark ⊢
  exact (readToken_mark hmark).2

/-- A mark has characters: the token ends behind the place it stands at. -/
theorem here_lt_of_mark (h : s.On text) {m : String} (hmark : s.reading.token.kind = .mark m)
    (hm : m ≠ "") : s.reading.hereOffset < s.reading.token.span.stop := by
  have hstop := h.stop_of_mark hmark
  have hpos : byteLength m.toList ≠ 0 := fun hzero =>
    hm (String.toList_eq_nil_iff.mp (byteLength_eq_zero.mp hzero))
  omega

end State.On

/-! ## Moving on -/

/-- The parser came from `s` to `s'`. -/
structure Reaches (text : List Char) (s s' : State) : Prop where
  on : s'.On text
  le : s.lastEnd ≤ s'.lastEnd
  start_le : s.reading.token.span.start ≤ s'.reading.token.span.start
  comments : ∃ later, s'.reading.comments = later ++ s.reading.comments
    ∧ ∀ k ∈ later, s.lastEnd ≤ k.start

namespace Reaches

variable {text : List Char} {s s' s'' : State}

theorem refl (h : s.On text) : Reaches text s s :=
  ⟨h, Nat.le_refl _, Nat.le_refl _, [], rfl, by simp⟩

theorem trans (h : Reaches text s s') (h' : Reaches text s' s'') : Reaches text s s'' := by
  obtain ⟨later, hlater, hstart⟩ := h.comments
  obtain ⟨later', hlater', hstart'⟩ := h'.comments
  refine ⟨h'.on, Nat.le_trans h.le h'.le, Nat.le_trans h.start_le h'.start_le, later' ++ later,
    by rw [hlater', hlater]; simp, ?_⟩
  intro k hk
  rcases List.mem_append.mp hk with hk | hk
  · exact Nat.le_trans h.le (hstart' k hk)
  · exact hstart k hk

end Reaches

variable {text : List Char} {s : State}

/-- A jump forward leads to a state that reads on from there. -/
theorem State.On.jump (h : s.On text) {offset : Nat} {cs : List Char} (hcs : From text offset cs)
    (hle : s.reading.hereOffset ≤ offset) :
    (s.jump offset cs).Reads text false ∧ Reaches text s (s.jump offset cs) := by
  have hreads : (s.jump offset cs).Reads text false :=
    ⟨cs, s.reading.comments, hcs, rfl, fun k hk =>
      ⟨h.comments_ordered k hk, Nat.le_trans (h.comments_le k hk) hle⟩⟩
  have hlast := h.lastEnd_le
  have hstart := h.start_le
  have hlast' := hreads.on.lastEnd_le
  refine ⟨hreads, hreads.on, ?_, ?_, (readToken false [] offset cs).comments, ?_, fun k hk => ?_⟩
  · simp only [State.jump]
    omega
  · simp only [State.jump] at hlast' ⊢
    omega
  · simp only [State.jump]
    rw [readToken_append]
  · have := (readToken_comments hk).1
    omega

theorem State.On.next (h : s.On text) : s.next.Reads text false ∧ Reaches text s s.next :=
  h.jump h.from_rest h.here_le

/-! ## Marks that have been passed -/

/-- The first token behind byte `offset` is the mark `m`, which ends at byte `stop`; the parser in
state `s` has read it, and has written down the comments in front of it and no comment over it. -/
def Passed (text : List Char) (s : State) (offset : Nat) (m : String) (stop : Nat) : Prop :=
  ∃ cs later earlier, From text offset cs
    ∧ (readToken false [] offset cs).token.kind = .mark m
    ∧ (readToken false [] offset cs).token.span.stop = stop
    ∧ stop ≤ s.lastEnd
    ∧ s.reading.comments = later ++ (readToken false [] offset cs).comments ++ earlier
    ∧ (∀ k ∈ later, stop ≤ k.start) ∧ ∀ k ∈ earlier, k.stop ≤ offset

theorem Passed.reaches {s' : State} {offset stop : Nat} {m : String}
    (h : Passed text s offset m stop) (hreach : Reaches text s s') :
    Passed text s' offset m stop := by
  obtain ⟨cs, later, earlier, hcs, hkind, hstop, hle, hcomments, hlater, hearlier⟩ := h
  obtain ⟨new, hnew, hstart⟩ := hreach.comments
  refine ⟨cs, new ++ later, earlier, hcs, hkind, hstop, Nat.le_trans hle hreach.le,
    by rw [hnew, hcomments]; simp, ?_, hearlier⟩
  intro k hk
  rcases List.mem_append.mp hk with hk | hk
  · exact Nat.le_trans hle (hstart k hk)
  · exact hlater k hk

/-- Moving over a mark passes it. -/
theorem State.Reads.passed (h : s.Reads text false) {m : String}
    (hmark : s.reading.token.kind = .mark m) :
    Passed text s.next s.lastEnd m s.next.lastEnd := by
  obtain ⟨later, hlater, -⟩ := h.on.next.2.comments
  obtain ⟨cs, earlier, hcs, hreading, hearlier⟩ := h
  have hreading' := hreading
  rw [readToken_append] at hreading'
  refine ⟨cs, (readToken false [] s.next.lastEnd s.reading.rest).comments, earlier, hcs, ?_, ?_,
    Nat.le_refl _, ?_, fun k hk => (readToken_comments hk).1, fun k hk => (hearlier k hk).2⟩
  · rw [← hmark, hreading']
  · simp only [State.next, State.jump, hreading']
  · have hcomments : s.reading.comments
        = (readToken false [] s.lastEnd cs).comments ++ earlier := by rw [hreading']
    rw [List.append_assoc, ← hcomments]
    simp only [State.next, State.jump]
    rw [readToken_append]

theorem Passed.le {offset stop : Nat} {m : String} (h : Passed text s offset m stop) :
    stop ≤ s.lastEnd := by
  obtain ⟨-, -, -, -, -, -, hle, -⟩ := h
  exact hle

theorem Passed.lt {offset stop : Nat} {m : String} (h : Passed text s offset m stop)
    (hm : m ≠ "") : offset < stop := by
  obtain ⟨cs, -, -, hcs, hkind, rfl, -⟩ := h
  have hcuts := readToken_cuts false [] offset cs
  have hstart := hcuts.le_start
  have hhere := hcuts.start_le
  have hstop := (readToken_mark hkind).2
  have hpos : byteLength m.toList ≠ 0 := fun hzero =>
    hm (String.toList_eq_nil_iff.mp (byteLength_eq_zero.mp hzero))
  omega

/-! ## Runs that end well -/

theorem Parser.bind_done {α β : Type} {p : Parser α} {k : α → Parser β} {c : Context}
    {s' : State} {b : β}
    (h : (p >>= k) c s = .done b s') : ∃ a s₁, p c s = .done a s₁ ∧ k a c s₁ = .done b s' := by
  change (p.andThen k) c s = _ at h
  unfold andThen at h
  split at h
  · rename_i a s₁ hrun
    exact ⟨a, s₁, hrun, h⟩
  · exact absurd h (by simp)
  · exact absurd h (by simp)

end AmdModules.Script
