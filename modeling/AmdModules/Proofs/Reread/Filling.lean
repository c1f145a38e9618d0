import AmdModules.Loader.Call
import AmdModules.Proofs.Script.Token

/-!
# Texts with something put in

A filling puts characters into a text: behind an opening parenthesis, behind a comma, and behind a
quote. These are the characters that no longer token goes on behind, so whatever reads a token
without passing one of them reads the same token from the filled text.

`Filling.gap` is what stands in front of a rest of the text, and `Filling.fill` a rest with
everything put in that belongs behind its first character. Over a stretch in which nothing is put in
the filled text is the text (`fill_calm`).
-/

set_option autoImplicit false

namespace AmdModules.Script

open Text

/-! ## Forgetting places -/

mutual

/-- A tree without its places. -/
def Node.plain : Node → Node
  | .mk kind _ parts => .mk kind ⟨0, 0⟩ (plainAll parts)

/-- Trees without their places. -/
def Node.plainAll : List Node → List Node
  | [] => []
  | n :: ns => n.plain :: plainAll ns

end

/-! ## Putting in -/

/-- Characters behind which something may be put. -/
def isStop (c : Char) : Bool :=
  c == '(' || c == ',' || c == '\x22' || c == '\x27'

theorem isStop_iff {c : Char} : isStop c = true ↔ c = '(' ∨ c = ',' ∨ c = '\x22' ∨ c = '\x27' := by
  simp [isStop, or_assoc]

/-- A class of characters that holds none of the four. -/
theorem isStop_eq_false {p : Char → Bool} {c : Char} (hc : p c = true)
    (hp : (p '(' || p ',' || p '\x22' || p '\x27') = false) : isStop c = false := by
  rw [Bool.eq_false_iff]
  intro hstop
  obtain rfl | rfl | rfl | rfl := isStop_iff.mp hstop <;> simp [hc] at hp

/-- What is put into a text, place by place, the calls it is meant for, and the trees that are read
there, without their places. -/
structure Filling (text : List Char) where
  put : Nat → List Char
  owns : Nat → Loader.Call → Prop
  nodes : Nat → List Node
  nodes_nil : ∀ {place : Nat}, put place = [] → nodes place = []
  nodes_plain : ∀ place, (nodes place).map Node.plain = nodes place
  plain : ∀ {o : Nat} {c : Char} {cs : List Char}, From text o (c :: cs) → isStop c = false →
    put (o + c.utf8Size) = []

namespace Filling

variable {text : List Char} (f : Filling text)

/-- What is put in front of a rest of the text. -/
def gap (cs : List Char) : List Char :=
  f.put (byteLength text - byteLength cs)

/-- A rest of the text with everything that is put in behind its first character. -/
def fill : List Char → List Char
  | [] => []
  | c :: cs => c :: (f.gap cs ++ fill cs)

/-- A rest of the text with everything that is put in, also in front of it. -/
def full (cs : List Char) : List Char :=
  f.gap cs ++ f.fill cs

variable {f}

theorem gap_eq {o : Nat} {cs : List Char} (h : From text o cs) : f.gap cs = f.put o := by
  have hplace : byteLength text - byteLength cs = o := by
    obtain ⟨before, htext, rfl⟩ := h
    rw [congrArg byteLength htext, byteLength_append, Nat.add_sub_cancel]
  rw [gap, hplace]

theorem suffix_of_from {o : Nat} {cs : List Char} (h : From text o cs) : cs <:+ text := by
  obtain ⟨before, htext, -⟩ := h
  exact ⟨before, htext.symm⟩

theorem exists_from {cs : List Char} (h : cs <:+ text) : ∃ o, From text o cs := by
  obtain ⟨before, htext⟩ := h
  exact ⟨_, before, htext.symm, rfl⟩

theorem suffix_tail {c : Char} {cs : List Char} (h : c :: cs <:+ text) : cs <:+ text :=
  (List.suffix_cons c cs).trans h

theorem gap_plain {c : Char} {cs : List Char} (h : c :: cs <:+ text) (hc : isStop c = false) :
    f.gap cs = [] := by
  obtain ⟨o, hfrom⟩ := exists_from h
  rw [gap_eq hfrom.tail]
  exact f.plain hfrom hc

theorem fill_eq_cons (c : Char) (cs : List Char) : f.fill (c :: cs) = c :: f.full cs := rfl

theorem full_eq_fill {cs : List Char} (h : f.gap cs = []) : f.full cs = f.fill cs := by
  rw [full, h, List.nil_append]

/-- Behind a character that ends no token nothing is put in. -/
theorem fill_cons {c : Char} {cs : List Char} (h : c :: cs <:+ text) (hc : isStop c = false) :
    f.fill (c :: cs) = c :: f.fill cs := by
  rw [fill_eq_cons, full_eq_fill (gap_plain h hc)]

/-- Where nothing is put in behind a character. -/
theorem fill_cons_of_put {o : Nat} {c : Char} {cs : List Char} (h : From text o (c :: cs))
    (hput : f.put (o + c.utf8Size) = []) : f.fill (c :: cs) = c :: f.fill cs := by
  rw [fill_eq_cons, full_eq_fill (by rw [gap_eq h.tail, hput])]

theorem fill_append {cs : List Char} (passed : List Char) (h : passed ++ cs <:+ text)
    (hpassed : ∀ c ∈ passed, isStop c = false) : f.fill (passed ++ cs) = passed ++ f.fill cs := by
  induction passed with
  | nil => rfl
  | cons c passed ih =>
    rw [List.cons_append] at h ⊢
    rw [fill_cons h (hpassed c (by simp)), ih (suffix_tail h) fun d hd => hpassed d (by simp [hd]),
      List.cons_append]

/-- Over a stretch in which nothing is put in the filled text is the text. -/
theorem fill_calm {o : Nat} {passed rest : List Char} (h : From text o (passed ++ rest))
    (hne : passed ≠ []) (hcalm : ∀ x, o < x → x < o + byteLength passed → f.put x = []) :
    f.fill (passed ++ rest) = passed ++ f.full rest := by
  induction passed generalizing o with
  | nil => exact absurd rfl hne
  | cons c passed ih =>
    rcases passed with _ | ⟨d, passed⟩
    · rfl
    · have hpos := c.utf8Size_pos
      have hpos' := d.utf8Size_pos
      have htail : From text (o + c.utf8Size) (d :: passed ++ rest) := h.tail
      have hgap : f.gap (d :: passed ++ rest) = [] := by
        rw [gap_eq htail]
        exact hcalm _ (by omega) (by simp only [byteLength_cons]; omega)
      rw [List.cons_append, fill_eq_cons, full_eq_fill hgap,
        ih htail (by simp) fun x hlo hhi => hcalm x (by omega) ?_]
      · rfl
      · simp only [byteLength_cons] at hhi ⊢
        omega

/-- The same up to a place in front of which nothing is put in either. -/
theorem fill_quiet {o : Nat} {passed rest : List Char} (h : From text o (passed ++ rest))
    (hcalm : ∀ x, o < x → x ≤ o + byteLength passed → f.put x = []) :
    f.fill (passed ++ rest) = passed ++ f.fill rest := by
  by_cases hne : passed = []
  · subst hne
    rfl
  · have hpos : byteLength passed ≠ 0 := mt byteLength_eq_zero.mp hne
    rw [fill_calm h hne fun x hlo hhi => hcalm x hlo (by omega), full_eq_fill]
    rw [gap_eq h.append]
    exact hcalm _ (by omega) (Nat.le_refl _)

theorem byteLength_le_fill (passed rest : List Char) :
    byteLength passed + byteLength (f.fill rest) ≤ byteLength (f.fill (passed ++ rest)) := by
  induction passed with
  | nil => simp
  | cons c passed ih =>
    simp only [List.cons_append, fill, byteLength_cons, byteLength_append]
    omega

theorem length_le_fill (cs : List Char) : cs.length ≤ (f.fill cs).length := by
  induction cs with
  | nil => exact Nat.le_refl 0
  | cons c cs ih =>
    simp only [fill, List.length_cons, List.length_append]
    omega

/-- What is put in at one place makes the text longer. -/
theorem length_put_le {o : Nat} {c : Char} {cs : List Char} (h : From text o (c :: cs)) :
    text.length + (f.put (o + c.utf8Size)).length ≤ (f.fill text).length := by
  have hgap : f.gap cs = f.put (o + c.utf8Size) := gap_eq h.tail
  have hpassed (passed : List Char) : passed.length + (f.fill (c :: cs)).length
      ≤ (f.fill (passed ++ c :: cs)).length := by
    induction passed with
    | nil => simp
    | cons d passed ih =>
      simp only [List.cons_append, fill, List.length_cons, List.length_append] at ih ⊢
      omega
  obtain ⟨before, htext, -⟩ := id h
  have hbefore := hpassed before
  have hbehind := f.length_le_fill cs
  rw [← htext, fill_eq_cons, full, hgap, List.length_cons, List.length_append] at hbefore
  have hlength := congrArg List.length htext
  rw [List.length_append, List.length_cons] at hlength
  omega

/-! ## Places of the filled text -/

/-- Where a place of the text is in the filled text, behind what is put in there. -/
def Moved (f : Filling text) (o o' : Nat) : Prop :=
  ∃ cs, From text o cs ∧ o' + byteLength (f.fill cs) = byteLength (f.fill text)

namespace Moved

variable {o o' p p' : Nat}

theorem lt (h : f.Moved o o') (h' : f.Moved p p') (hlt : o < p) : o' < p' := by
  obtain ⟨cs, hcs, hlength⟩ := h
  obtain ⟨ds, hds, hlength'⟩ := h'
  obtain ⟨passed, rfl, rfl⟩ := hcs.sub hds (Nat.le_of_lt hlt)
  have := f.byteLength_le_fill passed ds
  omega

theorem le (h : f.Moved o o') (h' : f.Moved p p') (hle : o ≤ p) : o' ≤ p' := by
  obtain ⟨cs, hcs, hlength⟩ := h
  obtain ⟨ds, hds, hlength'⟩ := h'
  obtain ⟨passed, rfl, -⟩ := hcs.sub hds hle
  have := f.byteLength_le_fill passed ds
  omega

/-- Different places stay different. -/
theorem eq_iff (h : f.Moved o o') (h' : f.Moved p p') : o' = p' ↔ o = p := by
  constructor
  · intro heq
    rcases Nat.lt_trichotomy o p with hlt | rfl | hlt
    · exact absurd (h.lt h' hlt) (by omega)
    · rfl
    · exact absurd (h'.lt h hlt) (by omega)
  · rintro rfl
    exact Nat.le_antisymm (h.le h' (Nat.le_refl _)) (h'.le h (Nat.le_refl _))

end Moved

/-! ## Looking ahead -/

theorem head?_fill (cs : List Char) : (f.fill cs).head? = cs.head? := by
  cases cs with
  | nil => rfl
  | cons c cs => rfl

theorem startsWith_fill {ms cs : List Char} (h : cs <:+ text)
    (hms : ms.dropLast.any isStop = false) :
    startsWith ms (f.fill cs) = startsWith ms cs := by
  induction ms generalizing cs with
  | nil => simp [startsWith]
  | cons m ms ih =>
    cases cs with
    | nil => rfl
    | cons c cs =>
      cases ms with
      | nil => simp [fill, startsWith]
      | cons m' ms =>
        obtain ⟨hm, hms⟩ := Bool.or_eq_false_iff.mp hms
        by_cases hmc : m = c
        · subst hmc
          rw [fill_cons h hm, startsWith, startsWith, ih (suffix_tail h) hms]
        · have hne : (m == c) = false := by simpa using hmc
          simp [fill, startsWith, hne]

variable {p : Char → Bool}

theorem takeWhile_fill {cs : List Char} (h : cs <:+ text)
    (hp : ∀ c, p c = true → isStop c = false) :
    (f.fill cs).takeWhile p = cs.takeWhile p := by
  induction cs with
  | nil => rfl
  | cons c cs ih =>
    cases hc : p c with
    | false => simp [fill, hc]
    | true => simp [fill_cons h (hp c hc), hc, ih (suffix_tail h)]

theorem dropWhile_fill {cs : List Char} (h : cs <:+ text)
    (hp : ∀ c, p c = true → isStop c = false) :
    (f.fill cs).dropWhile p = f.fill (cs.dropWhile p) := by
  induction cs with
  | nil => rfl
  | cons c cs ih =>
    cases hc : p c with
    | false => simp [fill, hc]
    | true => simp [fill_cons h (hp c hc), hc, ih (suffix_tail h)]

theorem span_fill {cs : List Char} (h : cs <:+ text) (hp : ∀ c, p c = true → isStop c = false) :
    (f.fill cs).span p = ((cs.span p).1, f.fill (cs.span p).2) := by
  simp only [List.span_eq_takeWhile_dropWhile, takeWhile_fill h hp, dropWhile_fill h hp]

end Filling

end AmdModules.Script
