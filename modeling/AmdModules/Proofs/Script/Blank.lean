import AmdModules.Proofs.Text.Bytes
import AmdModules.Script.Blank

/-!
# What stands between two tokens

`skipBlank` passes over a stretch of text and writes down the comments in it. Of that stretch two
things matter later. What is passed over and what is left make up the text, so offsets stay places
(`skipBlank_split`); and every character of it is white space or lies in one of the comments written
down (`skipBlank_covers`), so a search that leaves comments out finds nothing there but white space.
-/

set_option autoImplicit false

namespace AmdModules.Script

open Text

theorem startsWith_iff {ms cs : List Char} : startsWith ms cs = true ↔ ∃ rest, cs = ms ++ rest := by
  induction ms generalizing cs with
  | nil => simp [startsWith]
  | cons m ms ih =>
    cases cs with
    | nil => simp [startsWith]
    | cons c cs =>
      simp only [startsWith, Bool.and_eq_true, beq_iff_eq, ih, List.cons_append, List.cons.injEq]
      constructor
      · rintro ⟨rfl, rest, rfl⟩
        exact ⟨rest, rfl, rfl⟩
      · rintro ⟨rest, rfl, rfl⟩
        exact ⟨rfl, rest, rfl⟩

/-- Where the comment that is being skipped started; the present place outside comments. -/
def Skipping.start (offset : Nat) : Skipping → Nat
  | .space => offset
  | .lineComment start | .blockComment start => start

variable {skipping : Skipping} {owed offset : Nat} {lineEnded : Bool} {marker : Option Nat}
  {comments : List Span} {cs : List Char}

/-- What is passed over and what is left are the text. -/
theorem skipBlank_split (skipping : Skipping) (owed offset : Nat) (lineEnded : Bool)
    (marker : Option Nat) (comments : List Span) (cs : List Char) :
    ∃ passed, cs = passed ++ (skipBlank skipping owed offset lineEnded marker comments cs).rest
      ∧ (skipBlank skipping owed offset lineEnded marker comments cs).offset
        = offset + byteLength passed
      ∧ (owed ≤ cs.length → owed ≤ passed.length) := by
  fun_induction skipBlank skipping owed offset lineEnded marker comments cs
  case case1 | case2 | case3 => exact ⟨[], by simp, by simp, by simp⟩
  case case15 => exact ⟨[], by simp, by simp, by simp⟩
  all_goals
    rename_i ih
    obtain ⟨passed, hcs, hoffset, howed⟩ := ih
    refine ⟨_ :: passed, by rw [List.cons_append, ← hcs], ?_, ?_⟩
    · rw [hoffset, byteLength_cons]
      omega
    · simp only [List.length_cons]
      omega

theorem le_skipBlank_offset (skipping : Skipping) (owed offset : Nat) (lineEnded : Bool)
    (marker : Option Nat) (comments : List Span) (cs : List Char) :
    offset ≤ (skipBlank skipping owed offset lineEnded marker comments cs).offset := by
  obtain ⟨passed, -, hoffset, -⟩ :=
    skipBlank_split skipping owed offset lineEnded marker comments cs
  omega

/-- Comments are added in front of those there were, and lie in what is passed over. -/
theorem skipBlank_comments (hstart : skipping.start offset ≤ offset) :
    ∃ new, (skipBlank skipping owed offset lineEnded marker comments cs).comments = new ++ comments
      ∧ ∀ k ∈ new, skipping.start offset ≤ k.start
        ∧ k.stop ≤ (skipBlank skipping owed offset lineEnded marker comments cs).offset := by
  fun_induction skipBlank skipping owed offset lineEnded marker comments cs
  case case1 | case15 => exact ⟨[], by simp, by simp⟩
  case case2 | case3 => exact ⟨[_], rfl, by simp [Skipping.start]⟩
  case case5 offset _ _ _ c _ next start _ ih =>
    -- the comment ends with its line
    obtain ⟨new, hnew, hbounds⟩ := ih (Nat.le_refl _)
    refine ⟨new ++ [⟨start, offset⟩], by simp [hnew], fun k hk => ?_⟩
    simp only [Skipping.start] at hbounds hstart ⊢
    rcases List.mem_append.mp hk with hk | hk
    · have := hbounds k hk
      omega
    · cases List.mem_singleton.mp hk
      exact ⟨Nat.le_refl _, Nat.le_trans (Nat.le_add_right _ _) (le_skipBlank_offset ..)⟩
  case case7 offset lineEnded marker comments c cs next start hclose ih =>
    -- the comment ends behind the slash that is still owed
    obtain ⟨new, hnew, hbounds⟩ := ih (Nat.le_refl _)
    simp only [Bool.and_eq_true, beq_iff_eq, startsWith_iff] at hclose
    obtain ⟨rfl, rest, rfl⟩ := hclose
    have hstar : '*'.utf8Size = 1 := by decide
    obtain ⟨passed, -, hoffset, howed⟩ :=
      skipBlank_split .space 1 next lineEnded marker (⟨start, offset + 2⟩ :: comments)
        (['/'] ++ rest)
    have hlen := length_le_byteLength passed
    have hone := howed (by simp)
    refine ⟨new ++ [⟨start, offset + 2⟩], by rw [hnew]; simp, fun k hk => ?_⟩
    simp only [Skipping.start] at hbounds hstart ⊢
    rcases List.mem_append.mp hk with hk | hk
    · have := hbounds k hk
      omega
    · cases List.mem_singleton.mp hk
      simp only
      omega
  case case4 skipping offset _ _ _ c _ next _ ih =>
    have hnext : skipping.start offset ≤ skipping.start next ∧ skipping.start next ≤ next := by
      cases skipping <;> simp only [Skipping.start] at * <;> omega
    obtain ⟨new, hnew, hbounds⟩ := ih hnext.2
    exact ⟨new, hnew, fun k hk => ⟨Nat.le_trans hnext.1 (hbounds k hk).1, (hbounds k hk).2⟩⟩
  all_goals
    rename_i ih
    obtain ⟨new, hnew, hbounds⟩ := ih (by simp only [Skipping.start] at *; omega)
    refine ⟨new, hnew, fun k hk => ?_⟩
    have := hbounds k hk
    simp only [Skipping.start] at *
    omega

/-- A comment ends behind the place it starts at. -/
theorem start_le_stop_of_mem_skipBlank (hstart : skipping.start offset ≤ offset)
    (hcomments : ∀ k ∈ comments, k.start ≤ k.stop) :
    ∀ k ∈ (skipBlank skipping owed offset lineEnded marker comments cs).comments,
      k.start ≤ k.stop := by
  have hadd {start stop : Nat} {comments : List Span} (hle : start ≤ stop)
      (hcomments : ∀ k ∈ comments, k.start ≤ k.stop) :
      ∀ k ∈ (⟨start, stop⟩ : Span) :: comments, k.start ≤ k.stop :=
    List.forall_mem_cons.mpr ⟨hle, hcomments⟩
  fun_induction skipBlank skipping owed offset lineEnded marker comments cs
  case case1 | case15 => exact hcomments
  case case2 | case3 => exact hadd hstart hcomments
  case case5 ih => exact ih (Nat.le_refl _) (hadd hstart hcomments)
  case case7 ih => exact ih (Nat.le_refl _) (hadd (Nat.le_add_right_of_le hstart) hcomments)
  case case4 skipping offset _ _ _ c _ next _ ih =>
    have hnext : skipping.start next ≤ next := by
      cases skipping <;> simp only [Skipping.start] at * <;> omega
    exact ih hnext hcomments
  all_goals
    rename_i ih
    exact ih (by simp only [Skipping.start] at *; omega) hcomments

/-- What has been written down stays. -/
theorem mem_skipBlank_comments {k : Span} (hk : k ∈ comments) :
    k ∈ (skipBlank skipping owed offset lineEnded marker comments cs).comments := by
  fun_induction skipBlank skipping owed offset lineEnded marker comments cs
  case case1 | case15 => exact hk
  case case2 | case3 => exact List.mem_cons_of_mem _ hk
  case case5 ih | case7 ih => exact ih (List.mem_cons_of_mem _ hk)
  all_goals
    rename_i ih
    exact ih hk

/-- The comment that is being skipped is written down, and reaches to the present place. -/
theorem skipBlank_records {start : Nat}
    (h : skipping = .lineComment start ∨ skipping = .blockComment start) :
    ∃ k ∈ (skipBlank skipping owed offset lineEnded marker comments cs).comments,
      k.start = start ∧ offset ≤ k.stop := by
  fun_induction skipBlank skipping owed offset lineEnded marker comments cs
  case case2 | case3 =>
    simp only [Skipping.lineComment.injEq, Skipping.blockComment.injEq, reduceCtorEq, or_false,
      false_or] at h
    exact ⟨_, List.mem_cons_self, h, Nat.le_refl _⟩
  case case4 offset _ _ _ c _ next _ ih =>
    obtain ⟨k, hk, hstart, hstop⟩ := ih h
    exact ⟨k, hk, hstart, by omega⟩
  case case5 | case7 =>
    simp only [Skipping.lineComment.injEq, Skipping.blockComment.injEq, reduceCtorEq, or_false,
      false_or] at h
    exact ⟨_, mem_skipBlank_comments List.mem_cons_self, h, by simp⟩
  case case6 ih | case8 ih =>
    obtain ⟨k, hk, hstart, hstop⟩ := ih h
    exact ⟨k, hk, hstart, by omega⟩
  all_goals simp at h

/-- White space, or part of a comment that is written down. -/
def Covered (recorded : List Span) (c : Char) (offset : Nat) : Prop :=
  isSpace c ∨ isLineEnd c ∨ ∃ k ∈ recorded, k.contains offset

theorem Covered.of_recorded {recorded : List Span} {c : Char} {start next offset : Nat}
    (h : ∃ k ∈ recorded, k.start = start ∧ next ≤ k.stop) (hstart : start ≤ offset)
    (hnext : offset < next) : Covered recorded c offset := by
  obtain ⟨k, hk, rfl, hstop⟩ := h
  refine .inr (.inr ⟨k, hk, ?_⟩)
  simp only [Span.contains, Bool.and_eq_true, decide_eq_true_eq]
  omega

/-- What is passed over is covered when its first character is and what follows is. -/
theorem Covered.cons {recorded : List Span} {c d : Char} {ds before after : List Char}
    {offset stop : Nat} (hhere : Covered recorded d offset)
    (hrest : ∀ {before : List Char}, ds = before ++ c :: after →
      offset + d.utf8Size + byteLength before < stop →
      Covered recorded c (offset + d.utf8Size + byteLength before))
    (hcs : d :: ds = before ++ c :: after) (hlt : offset + byteLength before < stop) :
    Covered recorded c (offset + byteLength before) := by
  cases before with
  | nil =>
    obtain ⟨rfl, -⟩ : d = c ∧ ds = after := by simpa using hcs
    exact hhere
  | cons e before =>
    obtain ⟨rfl, hds⟩ : d = e ∧ ds = before ++ c :: after := by simpa using hcs
    rw [byteLength_cons, ← Nat.add_assoc] at hlt ⊢
    exact hrest hds hlt

/-- **Between two tokens there is only white space, comments apart.** -/
theorem skipBlank_covers (hstart : skipping.start offset ≤ offset)
    (hspace : skipping = .space → owed = 0 ∨ owed = 1 ∧ ∃ k ∈ comments, k.contains offset)
    {before after : List Char} {c : Char} (hcs : cs = before ++ c :: after)
    (hlt : offset + byteLength before
      < (skipBlank skipping owed offset lineEnded marker comments cs).offset) :
    Covered (skipBlank skipping owed offset lineEnded marker comments cs).comments c
      (offset + byteLength before) := by
  fun_induction skipBlank skipping owed offset lineEnded marker comments cs generalizing before
  case case1 | case2 | case3 => simp at hcs
  case case15 =>
    simp only at hlt
    omega
  case case4 skipping offset _ _ comments d _ next owed ih =>
    have hpos := d.utf8Size_pos
    have hnext : skipping.start next ≤ next := by
      cases skipping <;> simp only [Skipping.start] at * <;> omega
    refine .cons ?_ (ih hnext ?_) hcs hlt
    · cases hmode : skipping with
      | space =>
        -- the slash that closes a comment already written down
        obtain ⟨k, hk, hin⟩ := ((hspace hmode).resolve_left (by simp)).2
        exact .inr (.inr ⟨k, mem_skipBlank_comments hk, hin⟩)
      | lineComment start =>
        subst hmode
        exact .of_recorded (skipBlank_records (.inl rfl)) hstart (by omega)
      | blockComment start =>
        subst hmode
        exact .of_recorded (skipBlank_records (.inr rfl)) hstart (by omega)
    · intro hmode
      have := ((hspace hmode).resolve_left (by simp)).1
      exact .inl (by omega)
  case case5 hend ih =>
    exact .cons (.inr (.inl hend)) (ih (Nat.le_refl _) fun _ => .inl rfl) hcs hlt
  case case6 d _ _ _ _ ih =>
    have hpos := d.utf8Size_pos
    refine .cons (.of_recorded (skipBlank_records (.inl rfl)) hstart (by omega))
      (ih ?_ (by simp)) hcs hlt
    simp only [Skipping.start] at *
    omega
  case case7 offset _ _ _ d _ next start hclose ih =>
    have hstar : d.utf8Size = 1 := by
      simp only [Bool.and_eq_true, beq_iff_eq] at hclose
      rw [hclose.1]
      decide
    simp only [Skipping.start] at hstart
    refine .cons (.of_recorded ⟨_, mem_skipBlank_comments List.mem_cons_self, rfl, Nat.le_refl _⟩
      hstart (by simp)) (ih (Nat.le_refl _) fun _ => .inr ⟨rfl, _, List.mem_cons_self, ?_⟩) hcs hlt
    simp only [Span.contains, Bool.and_eq_true, decide_eq_true_eq]
    omega
  case case8 d _ _ _ _ ih =>
    have hpos := d.utf8Size_pos
    refine .cons (.of_recorded (skipBlank_records (.inr rfl)) hstart (by omega))
      (ih ?_ (by simp)) hcs hlt
    simp only [Skipping.start] at *
    omega
  case case9 hend ih =>
    exact .cons (.inr (.inl hend)) (ih (Nat.le_refl _) fun _ => .inl rfl) hcs hlt
  case case10 hspaceChar ih =>
    exact .cons (.inl hspaceChar) (ih (Nat.le_refl _) fun _ => .inl rfl) hcs hlt
  case case12 d _ _ _ _ _ _ ih =>
    have hpos := d.utf8Size_pos
    refine .cons (.of_recorded (skipBlank_records (.inr rfl)) (Nat.le_refl _) (by omega))
      (ih ?_ (by simp)) hcs hlt
    simp only [Skipping.start]
    omega
  all_goals
    rename_i ih
    have hpos := Char.utf8Size_pos ‹Char›
    refine .cons (.of_recorded (skipBlank_records (.inl rfl)) (Nat.le_refl _) (by omega))
      (ih ?_ (by simp)) hcs hlt
    simp only [Skipping.start]
    omega

/-- The place of a page marker lies in what is passed over. -/
theorem skipBlank_marker {m : Nat}
    (h : (skipBlank skipping owed offset lineEnded marker comments cs).marker = some m) :
    marker = some m ∨ offset ≤ m
      ∧ m ≤ (skipBlank skipping owed offset lineEnded marker comments cs).offset := by
  fun_induction skipBlank skipping owed offset lineEnded marker comments cs
  case case1 | case2 | case3 | case15 => exact .inl h
  case case13 ih | case14 ih =>
    rcases ih h with hm | hm
    · simp only [Option.orElse_eq_orElse, Option.orElse_eq_or, Option.or_eq_some_iff] at hm
      rcases hm with hm | ⟨-, hm⟩
      · exact .inl hm
      · cases hm
        exact .inr ⟨Nat.le_refl _, Nat.le_trans (Nat.le_add_right _ _) (le_skipBlank_offset ..)⟩
    · exact .inr (by omega)
  all_goals
    rename_i ih
    rcases ih h with h | h
    · exact .inl h
    · exact .inr (by omega)

/-- Comments that were written down before have no influence. -/
theorem skipBlank_append (older : List Span) :
    skipBlank skipping owed offset lineEnded marker (comments ++ older) cs
      = { skipBlank skipping owed offset lineEnded marker comments cs with
          comments := (skipBlank skipping owed offset lineEnded marker comments cs).comments
            ++ older } := by
  fun_induction skipBlank skipping owed offset lineEnded marker comments cs
  case case1 | case2 | case3 | case15 => simp [skipBlank, *]
  all_goals
    rename_i ih
    rw [skipBlank]
    simp only [*, ↓reduceIte, Bool.false_eq_true]
    exact ih

end AmdModules.Script
