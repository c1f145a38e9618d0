import AmdModules.Normalize.Edits
import AmdModules.Proofs.Text.Bytes
import Mathlib.Order.Lattice.Nat

/-!
# Searching outside comments

`Normalize.findOutside` jumps from comment to comment. What it finds is described without the jumps:
the first place at which the character stands outside every comment (`findOutside_eq_some`). The
comments may stand in any order, overlap, or be empty, and those that lie behind the place may end
anywhere. Each jump leaves one comment behind for good, which is why one step more than there are
comments is enough. A search up to what is no place of the text finds nothing
(`findOutside_eq_none`).

`Searches` is the same search as a loop without a bound on its steps. It always ends, with the
answer of `findOutside` (`searches_iff`); where all comments end at places of the text, that answer
is the first place there is, and none only when there is none (`findOutside_least`).
-/

set_option autoImplicit false

namespace AmdModules

/-- What a slice is: the text between two places. -/
theorem Text.slice?_eq_some {text inside : List Char} {start stop : Nat}
    (h : slice? start stop text = some inside) :
    ∃ after, From text start (inside ++ after) ∧ start + byteLength inside = stop := by
  unfold slice? at h
  obtain ⟨hle, h⟩ := Option.ite_none_right_eq_some.mp h
  obtain ⟨⟨before, behind⟩, hstart, h⟩ := Option.bind_eq_some_iff.mp h
  obtain ⟨⟨inside, after⟩, hinside, h⟩ := Option.bind_eq_some_iff.mp h
  cases h
  obtain ⟨rfl, hbefore⟩ := splitAt?_eq_some hstart
  obtain ⟨rfl, hlen⟩ := splitAt?_eq_some hinside
  exact ⟨after, ⟨before, rfl, hbefore⟩, by omega⟩

namespace Normalize

open Text

/-- Whether `c` stands at `place`, between two offsets and in no comment. -/
structure Outside (text : List Char) (comments : List Span) (c : Char) (offset stop place : Nat) :
    Prop where
  ge : offset ≤ place
  lt : place < stop
  here : ∃ rest, From text place (c :: rest)
  free : ∀ comment ∈ comments, comment.contains place = false

/-- How many comments end behind a place. -/
def commentsAhead (comments : List Span) (offset : Nat) : Nat :=
  comments.countP (offset < ·.stop)

theorem commentsAhead_lt {comments : List Span} {comment : Span} {offset : Nat}
    (hmem : comment ∈ comments) (hlt : offset < comment.stop) :
    commentsAhead comments comment.stop < commentsAhead comments offset := by
  unfold commentsAhead
  induction comments with
  | nil => exact absurd hmem (by simp)
  | cons k comments ih =>
    rw [List.countP_cons, List.countP_cons]
    have hmono : comments.countP (comment.stop < ·.stop) ≤ comments.countP (offset < ·.stop) :=
      List.countP_mono_left fun k _ hk => by
        simp only [decide_eq_true_eq] at hk ⊢
        omega
    rcases List.mem_cons.mp hmem with rfl | hmem
    · simp only [Nat.lt_irrefl, decide_false, hlt, decide_true]
      simp only [Bool.false_eq_true, ↓reduceIte]
      omega
    · have := ih hmem
      split <;> split <;> simp only [decide_eq_true_eq] at * <;> omega

variable {text : List Char} {comments : List Span} {c : Char} {stop : Nat}

/-- No `c` stands before the first one of a slice. -/
theorem Outside.first_le {offset place : Nat} {before after : List Char}
    (h : Outside text comments c offset stop place) (hnot : c ∉ before)
    (hoffset : From text offset (before ++ after)) : offset + byteLength before ≤ place := by
  obtain ⟨hge, hlt, ⟨rest, hhere⟩, -⟩ := h
  obtain ⟨between, heq, hlen⟩ := hoffset.sub hhere hge
  refine Nat.le_of_not_lt fun hbefore => hnot ?_
  -- otherwise `c` is one of the characters of `before`
  have hbehind := hoffset.append
  obtain ⟨middle, heq', hlen'⟩ := hhere.sub hbehind (by omega)
  cases middle with
  | nil =>
    simp only [byteLength_nil] at hlen'
    omega
  | cons d middle =>
    obtain ⟨rfl, rfl⟩ : c = d ∧ rest = middle ++ after := by simpa using heq'
    have hsplit : before ++ after = (between ++ c :: middle) ++ after := by
      rw [heq]
      simp
    rw [(append_inj_of_byteLength hsplit (by
      simp only [byteLength_append, byteLength_cons] at hlen' ⊢
      omega)).1]
    simp

/-- The first place outside the comments is what the search answers. Only the comments it may come
across have to end at a place of the text. -/
theorem findOutsideFrom_eq_some (hstop : ∃ cs, From text stop cs) {steps offset place : Nat}
    (hoffset : ∃ cs, From text offset cs) (hsteps : commentsAhead comments offset < steps)
    (hcomments : ∀ comment ∈ comments, offset < comment.stop → comment.start < place →
      ∃ cs, From text comment.stop cs)
    (h : Outside text comments c offset stop place)
    (hleast : ∀ other, Outside text comments c offset stop other → place ≤ other) :
    findOutsideFrom text comments c stop steps offset = some place := by
  induction steps generalizing offset with
  | zero => exact absurd hsteps (Nat.not_lt_zero _)
  | succ steps ih =>
    obtain ⟨atOffset, hoffset⟩ := hoffset
    obtain ⟨atStop, hstop⟩ := hstop
    have hge := h.ge
    have hlt := h.lt
    rw [findOutsideFrom]
    obtain ⟨inside, rfl, hlen⟩ := hoffset.sub hstop (by omega)
    have hslice : slice? offset stop text = some inside := by
      obtain ⟨before, rfl, rfl⟩ := hoffset
      rw [← hlen]
      exact slice?_append before inside atStop
    simp only [hslice, Option.bind_eq_bind, Option.bind_some]
    cases hfind : find? c inside with
    | none =>
      have hle := h.first_le (find?_eq_none hfind) hoffset
      omega
    | some n =>
      obtain ⟨before, after, rfl, rfl, hnot⟩ := find?_eq_some hfind
      simp only [Option.bind_some]
      have hsplit : From text offset (before ++ (c :: after ++ atStop)) := by simpa using hoffset
      have hfirst : offset + byteLength before ≤ place := h.first_le hnot hsplit
      have hfound : From text (offset + byteLength before) (c :: after ++ atStop) :=
        From.append hsplit
      cases hcomment : comments.find? (·.contains (offset + byteLength before)) with
      | none =>
        have hfree : ∀ comment ∈ comments, comment.contains (offset + byteLength before) = false :=
          fun comment hmem => by simpa using List.find?_eq_none.mp hcomment comment hmem
        have hle := hleast _ ⟨Nat.le_add_right _ _, by omega, ⟨_, hfound⟩, hfree⟩
        rw [Nat.le_antisymm hfirst hle]
      | some comment =>
        have hmem := List.mem_of_find?_eq_some hcomment
        have hin := List.find?_some hcomment
        have hfree := h.free comment hmem
        simp only [Span.contains, Bool.and_eq_true, decide_eq_true_eq, Bool.and_eq_false_imp,
          decide_eq_false_iff_not] at hin hfree
        -- nothing is passed over: the places in front of the end of the comment are in it
        have hahead := commentsAhead_lt hmem (show offset < comment.stop by omega)
        refine ih (hcomments comment hmem (by omega) (by omega)) (by omega) ?_ ?_ ?_
        · exact fun k hk hend hstart => hcomments k hk (by omega) hstart
        · exact ⟨by omega, h.lt, h.here, h.free⟩
        · exact fun other hother =>
            hleast other ⟨by have := hother.ge; omega, hother.lt, hother.here, hother.free⟩

theorem commentsAhead_le (comments : List Span) (offset : Nat) :
    commentsAhead comments offset < comments.length + 1 :=
  Nat.lt_succ_of_le List.countP_le_length

theorem findOutside_eq_some {offset place : Nat} (hoffset : ∃ cs, From text offset cs)
    (hstop : ∃ cs, From text stop cs)
    (hcomments : ∀ comment ∈ comments, offset < comment.stop → comment.start < place →
      ∃ cs, From text comment.stop cs)
    (h : Outside text comments c offset stop place)
    (hleast : ∀ other, Outside text comments c offset stop other → place ≤ other) :
    findOutside text comments offset stop c = some place :=
  findOutsideFrom_eq_some hstop hoffset (commentsAhead_le comments offset) hcomments h hleast

theorem findOutside_eq_none (hstop : ¬∃ cs, From text stop cs) (offset : Nat) :
    findOutside text comments offset stop c = none := by
  have hslice : slice? offset stop text = none := by
    rw [Option.eq_none_iff_forall_ne_some]
    intro inside h
    obtain ⟨after, hinside, rfl⟩ := slice?_eq_some h
    exact hstop ⟨after, hinside.append⟩
  rw [findOutside, findOutsideFrom, hslice]
  rfl

/-! ## The search as a loop

The steps of `findOutsideFrom` are there for the recursion only. The loop itself knows no bound. -/

/-- How the search from a place ends: `Searches text comments c stop offset answer jumps` says that
it gives `answer` after `jumps` comments were passed. -/
inductive Searches (text : List Char) (comments : List Span) (c : Char) (stop : Nat) :
    Nat → Option Nat → Nat → Prop
  /-- There is no stretch to search: it runs backwards, or an end is no place of the text. -/
  | beyond {offset : Nat} (hslice : slice? offset stop text = none) :
    Searches text comments c stop offset none 0
  /-- The character does not stand in the stretch. -/
  | absent {offset : Nat} {inside : List Char} (hslice : slice? offset stop text = some inside)
    (hfind : find? c inside = none) : Searches text comments c stop offset none 0
  /-- It stands there, and in no comment. -/
  | found {offset n : Nat} {inside : List Char} (hslice : slice? offset stop text = some inside)
    (hfind : find? c inside = some n)
    (hfree : comments.find? (·.contains (offset + n)) = none) :
    Searches text comments c stop offset (some (offset + n)) 0
  /-- It stands in a comment; the search goes on behind the first such comment of the list. -/
  | jump {offset n jumps : Nat} {inside : List Char} {comment : Span} {answer : Option Nat}
    (hslice : slice? offset stop text = some inside) (hfind : find? c inside = some n)
    (hcomment : comments.find? (·.contains (offset + n)) = some comment)
    (hrest : Searches text comments c stop comment.stop answer jumps) :
    Searches text comments c stop offset answer (jumps + 1)

/-- A comment that the search comes across ends behind the place the search started at. -/
theorem lt_stop_of_find? {offset n : Nat} {comment : Span}
    (h : comments.find? (·.contains (offset + n)) = some comment) :
    comment ∈ comments ∧ offset < comment.stop := by
  have hin := List.find?_some h
  simp only [Span.contains, Bool.and_eq_true, decide_eq_true_eq] at hin
  exact ⟨List.mem_of_find?_eq_some h, by omega⟩

/-- Where the steps are enough, the loop ends with the same answer and passes each comment at most
once: those that end behind the place get fewer with every jump. -/
theorem searches_findOutsideFrom {steps offset : Nat}
    (hsteps : commentsAhead comments offset < steps) :
    ∃ jumps ≤ commentsAhead comments offset, Searches text comments c stop offset
      (findOutsideFrom text comments c stop steps offset) jumps := by
  induction steps generalizing offset with
  | zero => exact absurd hsteps (Nat.not_lt_zero _)
  | succ steps ih =>
    rw [findOutsideFrom]
    cases hslice : slice? offset stop text with
    | none => exact ⟨0, Nat.zero_le _, .beyond hslice⟩
    | some inside =>
      simp only [Option.bind_eq_bind, Option.bind_some]
      cases hfind : find? c inside with
      | none => exact ⟨0, Nat.zero_le _, .absent hslice hfind⟩
      | some n =>
        simp only [Option.bind_some]
        cases hcomment : comments.find? (·.contains (offset + n)) with
        | none => exact ⟨0, Nat.zero_le _, .found hslice hfind hcomment⟩
        | some comment =>
          obtain ⟨hmem, hlt⟩ := lt_stop_of_find? hcomment
          have hahead := commentsAhead_lt hmem hlt
          obtain ⟨jumps, hjumps, hrest⟩ :=
            ih (show commentsAhead comments comment.stop < steps by omega)
          exact ⟨jumps + 1, by omega, .jump hslice hfind hcomment hrest⟩

/-- What the loop finds stands outside the comments. -/
theorem Searches.outside {offset jumps : Nat} {answer : Option Nat}
    (h : Searches text comments c stop offset answer jumps) :
    ∀ place, answer = some place → Outside text comments c offset stop place := by
  induction h with
  | beyond | absent => exact fun _ h => absurd h (by simp)
  | found hslice hfind hfree =>
    rintro _ ⟨rfl⟩
    obtain ⟨atStop, hinside, hstop⟩ := slice?_eq_some hslice
    obtain ⟨before, after, rfl, rfl, -⟩ := find?_eq_some hfind
    rw [List.append_assoc] at hinside
    have hpos := c.utf8Size_pos
    simp only [byteLength_append, byteLength_cons] at hstop
    exact ⟨Nat.le_add_right _ _, by omega, ⟨_, hinside.append⟩,
      fun comment hmem => by simpa using List.find?_eq_none.mp hfree comment hmem⟩
  | jump hslice hfind hcomment hrest ih =>
    intro place hplace
    obtain ⟨hge, hlt, hhere, hfree⟩ := ih place hplace
    exact ⟨Nat.le_trans (lt_stop_of_find? hcomment).2.le hge, hlt, hhere, hfree⟩

/-- The loop ends in one way only. -/
theorem Searches.unique {offset jumps jumps' : Nat} {answer answer' : Option Nat}
    (h : Searches text comments c stop offset answer jumps)
    (h' : Searches text comments c stop offset answer' jumps') :
    answer = answer' ∧ jumps = jumps' := by
  induction h generalizing answer' jumps' with
  | beyond hslice | absent hslice hfind | found hslice hfind hfree => cases h' <;> grind
  | jump hslice hfind hcomment hrest ih =>
    cases h' with
    | beyond | absent | found => grind
    | jump hslice' hfind' hcomment' hrest' =>
      obtain rfl := Option.some.inj (hslice.symm.trans hslice')
      obtain rfl := Option.some.inj (hfind.symm.trans hfind')
      obtain rfl := Option.some.inj (hcomment.symm.trans hcomment')
      obtain ⟨rfl, rfl⟩ := ih hrest'
      exact ⟨rfl, rfl⟩

/-- **The loop ends**, whatever the comments and the places are, and `findOutside` is its answer. -/
theorem searches_iff (text : List Char) (comments : List Span) (offset stop : Nat) (c : Char) :
    ∃ jumps ≤ comments.length, ∀ answer n, Searches text comments c stop offset answer n
      ↔ answer = findOutside text comments offset stop c ∧ n = jumps := by
  obtain ⟨jumps, hjumps, h⟩ : ∃ jumps ≤ commentsAhead comments offset,
      Searches text comments c stop offset (findOutside text comments offset stop c) jumps :=
    searches_findOutsideFrom (commentsAhead_le comments offset)
  refine ⟨jumps, hjumps.trans List.countP_le_length, fun answer n => ⟨(·.unique h), ?_⟩⟩
  rintro ⟨rfl, rfl⟩
  exact h

/-- **The search is exact.** The comments may stand in any order, overlap, hold one another or be
empty. The loop ends and has then passed no more comments than there are. It finds the first place
at which the character stands outside them, and nothing exactly when there is no such place. -/
theorem findOutside_least {offset : Nat} (hoffset : ∃ cs, From text offset cs)
    (hstop : ∃ cs, From text stop cs)
    (hcomments : ∀ comment ∈ comments, ∃ cs, From text comment.stop cs) :
    (∃ jumps ≤ comments.length, ∀ answer n, Searches text comments c stop offset answer n
        ↔ answer = findOutside text comments offset stop c ∧ n = jumps)
      ∧ (∀ place, findOutside text comments offset stop c = some place
        ↔ IsLeast {place | Outside text comments c offset stop place} place)
      ∧ (findOutside text comments offset stop c = none
        ↔ ∀ place, ¬Outside text comments c offset stop place) := by
  obtain ⟨jumps, -, hjumps⟩ := searches_iff text comments offset stop c
  have hsearch := (hjumps _ _).mpr ⟨rfl, rfl⟩
  have hfinds {place : Nat} (h : IsLeast {place | Outside text comments c offset stop place} place) :
      findOutside text comments offset stop c = some place :=
    findOutside_eq_some hoffset hstop (fun comment hmem _ _ => hcomments comment hmem) h.1
      fun _ hother => h.2 hother
  -- wherever the character stands outside, there is a first such place
  have hfirst {place : Nat} (h : Outside text comments c offset stop place) :
      ∃ first, IsLeast {place | Outside text comments c offset stop place} first :=
    ⟨_, isLeast_csInf ⟨place, h⟩⟩
  refine ⟨searches_iff .., fun place => ⟨fun h => ?_, hfinds⟩, ⟨fun h place hplace => ?_, fun h => ?_⟩⟩
  · obtain ⟨first, hleast⟩ := hfirst (hsearch.outside place h)
    obtain rfl : first = place := Option.some.inj ((hfinds hleast).symm.trans h)
    exact hleast
  · obtain ⟨first, hleast⟩ := hfirst hplace
    exact absurd (hfinds hleast) (by simp [h])
  · rw [Option.eq_none_iff_forall_ne_some]
    exact fun place hplace => h place (hsearch.outside place hplace)

/-- A text with parentheses inside and outside of comments, after a wide character. -/
def nestedText : List Char :=
  "é(/*(*/((".toList

/-- Comments in no order: one in another, one across the start of another, an empty one. -/
def nestedComments : List Span :=
  [⟨5, 6⟩, ⟨2, 3⟩, ⟨8, 8⟩, ⟨3, 8⟩, ⟨0, 4⟩]

theorem findOutside_nested :
    (∀ comment ∈ nestedComments, ∃ cs, From nestedText comment.stop cs)
      ∧ findOutside nestedText nestedComments 0 10 '(' = some 8
      ∧ IsLeast {place | Outside nestedText nestedComments '(' 0 10 place} 8 := by
  have hplaces : ∀ comment ∈ nestedComments, ∃ cs, From nestedText comment.stop cs := by
    have hplace : ∀ n ∈ [5, 2, 7, 3], byteLength (nestedText.take n) = n + 1 := by decide
    have hfrom (n : Nat) (h : n ∈ [5, 2, 7, 3]) : ∃ cs, From nestedText (n + 1) cs :=
      ⟨_, _, (List.take_append_drop n nestedText).symm, hplace n h⟩
    simp only [nestedComments, List.forall_mem_cons]
    exact ⟨hfrom 5 (by simp), hfrom 2 (by simp), hfrom 7 (by simp), hfrom 7 (by simp),
      hfrom 3 (by simp), by simp⟩
  have heq : findOutside nestedText nestedComments 0 10 '(' = some 8 := by decide
  obtain ⟨-, hleast, -⟩ := @findOutside_least nestedText nestedComments '(' 10 0
    ⟨_, From.start nestedText⟩ ⟨[], nestedText, by simp, by decide⟩ hplaces
  exact ⟨hplaces, heq, (hleast 8).mp heq⟩

end Normalize

end AmdModules
