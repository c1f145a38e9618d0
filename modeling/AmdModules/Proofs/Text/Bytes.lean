import AmdModules.Text.Bytes

/-!
# Places in a text

A byte offset is a place of a text when the text splits there. `Text.From text offset cs` says so
and names what follows: `cs` is the text from `offset` on. Cutting at a place succeeds, and the
search for a character finds its first occurrence; everything that works on offsets is stated in
these terms.
-/

set_option autoImplicit false

namespace AmdModules.Text

/-! ## Byte lengths -/

@[simp] theorem byteLength_nil : byteLength [] = 0 := rfl

@[simp] theorem byteLength_cons (c : Char) (cs : List Char) :
    byteLength (c :: cs) = c.utf8Size + byteLength cs := rfl

@[simp] theorem byteLength_append (as bs : List Char) :
    byteLength (as ++ bs) = byteLength as + byteLength bs := by
  induction as with
  | nil => simp
  | cons a as ih => simp [ih, Nat.add_assoc]

theorem byteLength_eq_zero {cs : List Char} : byteLength cs = 0 ↔ cs = [] := by
  cases cs with
  | nil => simp
  | cons c cs =>
    have := c.utf8Size_pos
    simp
    omega

theorem length_le_byteLength (cs : List Char) : cs.length ≤ byteLength cs := by
  induction cs with
  | nil => exact Nat.le_refl 0
  | cons c cs ih =>
    have := c.utf8Size_pos
    simp only [List.length_cons, byteLength_cons]
    omega

/-- Two splits of one text at the same byte are the same split. -/
theorem append_inj_of_byteLength {as bs cs ds : List Char} (h : as ++ cs = bs ++ ds)
    (hlen : byteLength as = byteLength bs) : as = bs ∧ cs = ds := by
  induction as generalizing bs with
  | nil =>
    have hb : bs = [] := byteLength_eq_zero.mp hlen.symm
    subst hb
    exact ⟨rfl, h⟩
  | cons a as ih =>
    cases bs with
    | nil =>
      have := a.utf8Size_pos
      simp only [byteLength_cons, byteLength_nil] at hlen
      omega
    | cons b bs =>
      simp only [List.cons_append, List.cons.injEq] at h
      obtain ⟨rfl, h⟩ := h
      simp only [byteLength_cons, Nat.add_left_cancel_iff] at hlen
      obtain ⟨rfl, rfl⟩ := ih h hlen
      exact ⟨rfl, rfl⟩

/-- Whether a text is made of characters of one byte. -/
def IsAscii (cs : List Char) : Prop :=
  ∀ c ∈ cs, c.toNat < 128

instance (cs : List Char) : Decidable (IsAscii cs) :=
  decidable_of_iff (cs.all (·.toNat < 128) = true) (by simp [IsAscii])

theorem utf8Size_of_lt {c : Char} (h : c.toNat < 128) : c.utf8Size = 1 := by
  have hval : c.val ≤ 127 := UInt32.le_iff_toNat_le.mpr (Nat.le_of_lt_succ h)
  simp [Char.utf8Size, hval]

theorem IsAscii.byteLength_eq {cs : List Char} (h : IsAscii cs) : byteLength cs = cs.length := by
  induction cs with
  | nil => rfl
  | cons c cs ih =>
    rw [byteLength_cons, utf8Size_of_lt (h c (by simp)), ih fun d hd => h d (by simp [hd])]
    simp [Nat.add_comm]

theorem IsAscii.of_append_left {as bs : List Char} (h : IsAscii (as ++ bs)) : IsAscii as :=
  fun c hc => h c (by simp [hc])

theorem IsAscii.of_append_right {as bs : List Char} (h : IsAscii (as ++ bs)) : IsAscii bs :=
  fun c hc => h c (by simp [hc])

theorem IsAscii.exists_split {cs : List Char} (h : IsAscii cs) {n : Nat} (hn : n ≤ byteLength cs) :
    ∃ before after, cs = before ++ after ∧ byteLength before = n := by
  refine ⟨cs.take n, cs.drop n, (List.take_append_drop n cs).symm, ?_⟩
  have hsplit : IsAscii (cs.take n) := fun c hc => h c (List.mem_of_mem_take hc)
  rw [h.byteLength_eq] at hn
  rw [hsplit.byteLength_eq, List.length_take]
  omega

/-! ## Cutting -/

@[simp] theorem splitAt?_byteLength (before after : List Char) :
    splitAt? (byteLength before) (before ++ after) = some (before, after) := by
  induction before with
  | nil => simp [splitAt?]
  | cons c before ih =>
    have hpos := c.utf8Size_pos
    obtain ⟨n, hn⟩ : ∃ n, c.utf8Size + byteLength before = n + 1 :=
      ⟨c.utf8Size + byteLength before - 1, by omega⟩
    rw [byteLength_cons, hn, List.cons_append, splitAt?, if_pos (by omega), ← hn,
      Nat.add_sub_cancel_left, ih]
    rfl

theorem splitAt?_eq_some {n : Nat} {cs before after : List Char}
    (h : splitAt? n cs = some (before, after)) : cs = before ++ after ∧ byteLength before = n := by
  induction cs generalizing n before with
  | nil =>
    cases n with
    | zero =>
      cases h
      exact ⟨rfl, rfl⟩
    | succ n => cases h
  | cons c cs ih =>
    cases n with
    | zero =>
      cases h
      exact ⟨rfl, rfl⟩
    | succ n =>
      rw [splitAt?] at h
      obtain ⟨hle, h⟩ := Option.ite_none_right_eq_some.mp h
      obtain ⟨⟨before, after⟩, hsplit, heq⟩ := Option.map_eq_some_iff.mp h
      cases heq
      obtain ⟨rfl, hlen⟩ := ih hsplit
      exact ⟨rfl, by rw [byteLength_cons, hlen]; omega⟩

theorem slice?_append (before inside after : List Char) :
    slice? (byteLength before) (byteLength before + byteLength inside) (before ++ (inside ++ after))
      = some inside := by
  unfold slice?
  rw [if_pos (by omega), splitAt?_byteLength]
  simp only [Option.bind_eq_bind, Option.bind_some, Nat.add_sub_cancel_left, splitAt?_byteLength]
  rfl

/-! ## Searching -/

theorem find?_eq_some {target : Char} {cs : List Char} {n : Nat} (h : find? target cs = some n) :
    ∃ before after, cs = before ++ target :: after ∧ byteLength before = n ∧ target ∉ before := by
  induction cs generalizing n with
  | nil => exact absurd h (by simp [find?])
  | cons c cs ih =>
    unfold find? at h
    split at h
    · rename_i heq
      cases h
      exact ⟨[], cs, by rw [heq]; rfl, rfl, by simp⟩
    · rename_i hne
      obtain ⟨m, hm, rfl⟩ := Option.map_eq_some_iff.mp h
      obtain ⟨before, after, rfl, rfl, hnot⟩ := ih hm
      exact ⟨c :: before, after, rfl, rfl, by simp [hnot, Ne.symm hne]⟩

theorem find?_eq_none {target : Char} {cs : List Char} (h : find? target cs = none) :
    target ∉ cs := by
  induction cs with
  | nil => simp
  | cons c cs ih =>
    unfold find? at h
    split at h
    · exact absurd h (by simp)
    · rename_i hne
      simp [ih (Option.map_eq_none_iff.mp h), Ne.symm hne]

/-! ## Places -/

/-- `cs` is what `text` goes on with from byte `offset`. -/
def From (text : List Char) (offset : Nat) (cs : List Char) : Prop :=
  ∃ before, text = before ++ cs ∧ byteLength before = offset

namespace From

variable {text cs ds : List Char} {offset : Nat}

theorem start (text : List Char) : From text 0 text :=
  ⟨[], rfl, rfl⟩

theorem append (h : From text offset (cs ++ ds)) : From text (offset + byteLength cs) ds := by
  obtain ⟨before, rfl, rfl⟩ := h
  exact ⟨before ++ cs, by simp, by simp⟩

theorem tail {c : Char} (h : From text offset (c :: cs)) : From text (offset + c.utf8Size) cs := by
  obtain ⟨before, rfl, rfl⟩ := h
  exact ⟨before ++ [c], by simp, by simp⟩

/-- Of two places the later one lies in what follows the earlier one. -/
theorem sub {offset' : Nat} (h : From text offset cs) (h' : From text offset' ds)
    (hle : offset ≤ offset') :
    ∃ between, cs = between ++ ds ∧ offset + byteLength between = offset' := by
  obtain ⟨before, rfl, rfl⟩ := h
  obtain ⟨before', heq, rfl⟩ := h'
  induction before generalizing before' with
  | nil => exact ⟨before', heq, by simp⟩
  | cons c before ih =>
    cases before' with
    | nil =>
      have := c.utf8Size_pos
      simp only [byteLength_cons, byteLength_nil] at hle
      omega
    | cons d before' =>
      simp only [List.cons_append, List.cons.injEq] at heq
      obtain ⟨rfl, heq⟩ := heq
      simp only [byteLength_cons] at hle
      obtain ⟨between, rfl, hlen⟩ := ih before' heq (by omega)
      exact ⟨between, rfl, by simp only [byteLength_cons]; omega⟩

theorem le_byteLength (h : From text offset cs) : offset ≤ byteLength text := by
  obtain ⟨before, rfl, rfl⟩ := h
  simp

theorem splitAt? (h : From text offset cs) :
    ∃ before, Text.splitAt? offset text = some (before, cs) := by
  obtain ⟨before, rfl, rfl⟩ := h
  exact ⟨before, splitAt?_byteLength before cs⟩

/-- Every offset up to the end of an ASCII text is a place of it. -/
theorem of_isAscii (h : IsAscii text) (hle : offset ≤ byteLength text) :
    ∃ cs, From text offset cs := by
  obtain ⟨before, after, htext, hbefore⟩ := h.exists_split hle
  exact ⟨after, before, htext, hbefore⟩

end From

end AmdModules.Text
