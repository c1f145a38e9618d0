import AmdModules.Text.Split

/-!
# Cutting and joining texts

`Text.splitOn` and `Text.joinWith` are the operations of the library on lists of characters. Cutting
at a separator and joining with it undo each other there; what is added here is what goes on at the
ends of a joined text, what a text without a separator is cut into, and the letters of the basic
alphabet: where they stand, and which texts are the small form of themselves only.
-/

set_option autoImplicit false

namespace AmdModules.Text

variable {separator : Char}

theorem splitOn_eq (cs : List Char) : splitOn separator cs = cs.splitOn separator := by
  induction cs with
  | nil => rfl
  | cons c cs ih =>
    have hne := List.splitOn_ne_nil separator cs
    rw [splitOn, List.splitOn_cons_eq_if_modifyHead, ih]
    by_cases hc : c = separator
    · rw [if_pos hc, if_pos (beq_iff_eq.mpr hc)]
    · rw [if_neg hc, if_neg (by simpa using hc)]
      cases hpieces : cs.splitOn separator with
      | nil => exact absurd hpieces hne
      | cons piece pieces => rfl

theorem joinWith_eq (between : List Char) (pieces : List (List Char)) :
    joinWith between pieces = between.intercalate pieces := by
  induction pieces with
  | nil => rfl
  | cons piece pieces ih =>
    cases pieces with
    | nil => rw [joinWith, List.intercalate_singleton]
    | cons next pieces =>
      rw [joinWith, ih, List.intercalate_cons_cons]
      simp

/-- What stands in a joined text comes from between the pieces or from one of them. -/
theorem mem_joinWith {between : List Char} {pieces : List (List Char)} {c : Char}
    (h : c ∈ joinWith between pieces) : c ∈ between ∨ ∃ piece ∈ pieces, c ∈ piece := by
  induction pieces with
  | nil => cases h
  | cons piece pieces ih =>
    cases pieces with
    | nil => exact .inr ⟨piece, by simp, h⟩
    | cons next pieces =>
      simp only [joinWith, List.mem_append] at h
      rcases h with (hpiece | hbetween) | hrest
      · exact .inr ⟨piece, by simp, hpiece⟩
      · exact .inl hbetween
      · rcases ih hrest with hbetween | ⟨other, hother, hc⟩
        · exact .inl hbetween
        · exact .inr ⟨other, List.mem_cons_of_mem _ hother, hc⟩

/-- What stands behind a joined text belongs to the last piece. -/
theorem joinWith_concat_append (between : List Char) (pieces : List (List Char))
    (last behind : List Char) :
    joinWith between (pieces ++ [last]) ++ behind
      = joinWith between (pieces ++ [last ++ behind]) := by
  induction pieces with
  | nil => rfl
  | cons piece pieces ih =>
    cases pieces with
    | nil => simp [joinWith]
    | cons next pieces =>
      simp only [List.cons_append, joinWith, List.append_assoc] at ih ⊢
      rw [ih]

theorem splitOn_append_cons (before behind : List Char) :
    splitOn separator (before ++ separator :: behind)
      = splitOn separator before ++ splitOn separator behind := by
  simp only [splitOn_eq, List.splitOn_append_cons_self]

theorem splitFirst?_eq_none {cs : List Char} (h : separator ∉ cs) :
    splitFirst? separator cs = none := by
  induction cs with
  | nil => rfl
  | cons c cs ih =>
    obtain ⟨hc, hcs⟩ := not_or.mp (mt List.mem_cons.mpr h)
    rw [splitFirst?, if_neg (Ne.symm hc), ih hcs, Option.map_none]

/-! ## Letters of the basic alphabet -/

theorem isUpper_iff {c : Char} : c.isUpper = true ↔ 65 ≤ c.toNat ∧ c.toNat ≤ 90 :=
  decide_eq_true_iff

theorem isLower_iff {c : Char} : c.isLower = true ↔ 97 ≤ c.toNat ∧ c.toNat ≤ 122 :=
  Bool.and_eq_true_iff.trans (and_congr decide_eq_true_iff decide_eq_true_iff)

theorem isAlpha_iff {c : Char} :
    c.isAlpha = true ↔ (65 ≤ c.toNat ∧ c.toNat ≤ 90) ∨ (97 ≤ c.toNat ∧ c.toNat ≤ 122) :=
  Bool.or_eq_true_iff.trans (or_congr isUpper_iff isLower_iff)

theorem isAlphanum_iff {c : Char} :
    c.isAlphanum = true ↔ ((65 ≤ c.toNat ∧ c.toNat ≤ 90) ∨ (97 ≤ c.toNat ∧ c.toNat ≤ 122))
      ∨ (48 ≤ c.toNat ∧ c.toNat ≤ 57) :=
  Bool.or_eq_true_iff.trans (or_congr isAlpha_iff
    (Bool.and_eq_true_iff.trans (and_congr decide_eq_true_iff decide_eq_true_iff)))

/-- A character that is no small letter is the small form of itself only. -/
theorem eq_of_toLower_eq {c d : Char} (h : c.toLower = d) (hd : d.isLower = false) : c = d := by
  unfold Char.toLower at h
  split at h
  · rename_i hupper
    have hge : 65 ≤ c.toNat := UInt32.le_iff_toNat_le.mp hupper.1
    have hle : c.toNat ≤ 90 := UInt32.le_iff_toNat_le.mp hupper.2
    have hsum : d.toNat = (c.toNat + 32) % 2 ^ 32 := by
      rw [← h]
      exact UInt32.toNat_add _ _
    have hnot : ¬(97 ≤ d.toNat ∧ d.toNat ≤ 122) := by
      rw [← isLower_iff, hd]
      exact Bool.false_ne_true
    omega
  · exact h

theorem eq_of_lower_eq {cs ds : List Char} (h : lower cs = ds)
    (hds : ds.any Char.isLower = false) : cs = ds := by
  subst h
  induction cs with
  | nil => rfl
  | cons c cs ih =>
    obtain ⟨hc, hcs⟩ := Bool.or_eq_false_iff.mp hds
    rw [lower, List.map_cons, ← eq_of_toLower_eq rfl hc]
    exact congrArg (c :: ·) (ih hcs)

end AmdModules.Text
