import AmdModules.Proofs.Text.Bytes
import AmdModules.Text.Edit

/-!
# What a set of edits makes of a text

`Edit.weave` reads a text once, byte by byte, and says what becomes of each: at every place stand
the texts inserted there, in the order they were recorded, and a character is kept unless it lies in
a stretch that is removed. It knows neither an order of application nor a way to fail.

`Edit.applyAll_eq_weave` is the main statement: edits that each insert or remove, that lie in the
text and of which no two overlap are applied without an error, and the result is the woven text.
-/

set_option autoImplicit false

namespace AmdModules

open Text

/-- Two stretches of which one ends before the other starts. -/
def Span.Apart (a b : Span) : Prop :=
  a.stop ≤ b.start ∨ b.stop ≤ a.start

theorem Span.Apart.symm {a b : Span} (h : a.Apart b) : b.Apart a :=
  Or.symm h

namespace Edit

/-- The texts that are put at one place. -/
def insertedAt (edits : List Edit) (offset : Nat) : List Char :=
  (edits.filter (·.span = ⟨offset, offset⟩)).flatMap (·.text)

/-- The text after the edits, byte by byte. -/
def weave (edits : List Edit) : Nat → List Char → List Char
  | offset, [] => insertedAt edits offset
  | offset, c :: cs =>
    insertedAt edits offset
      ++ (if edits.any (·.span.contains offset) then [] else [c])
      ++ weave edits (offset + c.utf8Size) cs

/-- An edit that inserts or removes, but not both, between two places of a text. -/
structure Fits (text : List Char) (e : Edit) : Prop where
  le : e.span.start ≤ e.span.stop
  start_mem : ∃ cs, From text e.span.start cs
  stop_mem : ∃ cs, From text e.span.stop cs
  pure : e.text = [] ∨ e.span.start = e.span.stop

/-! ## Ordering -/

theorem place_perm (e : Edit) (es : List Edit) : (place e es).Perm (e :: es) := by
  induction es with
  | nil => exact .refl _
  | cons f es ih =>
    unfold place
    split
    · exact .refl _
    · exact (ih.cons f).trans (.swap e f es)

theorem sort_perm (es : List Edit) : (sort es).Perm es := by
  induction es with
  | nil => exact .refl _
  | cons e es ih => exact (place_perm e (sort es)).trans (ih.cons e)

theorem le_total {e f : Edit} (h : e.le f = false) : f.le e = true := by
  simp only [le, Bool.or_eq_false_iff, decide_eq_false_iff_not, Bool.and_eq_false_imp,
    beq_iff_eq] at h
  simp only [le, Bool.or_eq_true, decide_eq_true_eq, Bool.and_eq_true, beq_iff_eq]
  omega

theorem le_trans {e f g : Edit} (h₁ : e.le f = true) (h₂ : f.le g = true) : e.le g = true := by
  simp only [le, Bool.or_eq_true, decide_eq_true_eq, Bool.and_eq_true, beq_iff_eq] at *
  omega

theorem place_sorted (e : Edit) {es : List Edit} (h : es.Pairwise (·.le ·)) :
    (place e es).Pairwise (·.le ·) := by
  induction es with
  | nil => simp [place]
  | cons f es ih =>
    obtain ⟨hf, hes⟩ := List.pairwise_cons.mp h
    unfold place
    split
    · rename_i hle
      refine List.pairwise_cons.mpr ⟨fun g hg => ?_, h⟩
      rcases List.mem_cons.mp hg with rfl | hg
      · exact hle
      · exact le_trans hle (hf g hg)
    · rename_i hle
      refine List.pairwise_cons.mpr ⟨fun g hg => ?_, ih hes⟩
      rcases List.mem_cons.mp ((place_perm e es).mem_iff.mp hg) with rfl | hg
      · exact le_total (by simpa using hle)
      · exact hf g hg

theorem sort_sorted (es : List Edit) : (sort es).Pairwise (·.le ·) := by
  induction es with
  | nil => exact .nil
  | cons e es ih => exact place_sorted e ih

/-- Ordering is stable: what is put at one place keeps its order. -/
theorem filter_place (e : Edit) (es : List Edit) (s : Span) :
    (place e es).filter (·.span = s) = (e :: es).filter (·.span = s) := by
  induction es with
  | nil => rfl
  | cons f es ih =>
    unfold place
    split
    · rfl
    · rename_i hle
      rw [List.filter_cons, ih]
      by_cases he : e.span = s
      · -- `f` was passed over, so it does not have the span of `e`
        have hf : f.span ≠ s := by
          rintro hf
          exact hle (by simp [le, he, hf])
        simp [List.filter_cons, hf]
      · simp [List.filter_cons, he]

theorem insertedAt_sort (es : List Edit) (offset : Nat) :
    insertedAt (sort es) offset = insertedAt es offset := by
  unfold insertedAt
  congr 1
  induction es with
  | nil => rfl
  | cons e es ih => rw [sort, filter_place, List.filter_cons, List.filter_cons, ih]

/-- What becomes of a text depends on what is inserted at each place and on the bytes removed. -/
theorem weave_congr {es es' : List Edit} (hins : ∀ o, insertedAt es o = insertedAt es' o)
    (hany : ∀ o, es.any (·.span.contains o) = es'.any (·.span.contains o)) (offset : Nat)
    (cs : List Char) : weave es offset cs = weave es' offset cs := by
  induction cs generalizing offset with
  | nil => exact hins offset
  | cons c cs ih => simp only [weave, hins, hany, ih]

theorem any_contains_of_perm {es es' : List Edit} (h : es.Perm es') (o : Nat) :
    es.any (·.span.contains o) = es'.any (·.span.contains o) := by
  rw [Bool.eq_iff_iff, List.any_eq_true, List.any_eq_true]
  simp only [h.mem_iff]

theorem weave_sort (es : List Edit) (offset : Nat) (cs : List Char) :
    weave (sort es) offset cs = weave es offset cs :=
  weave_congr (insertedAt_sort es) (any_contains_of_perm (sort_perm es)) offset cs

/-- Of two edits that are apart, the one that comes first ends before the other starts. -/
theorem stop_le_of_le {e f : Edit} (hle : e.le f = true) (_ : e.span.start ≤ e.span.stop)
    (hf : f.span.start ≤ f.span.stop) (hapart : e.span.Apart f.span) :
    e.span.stop ≤ f.span.start := by
  simp only [le, Bool.or_eq_true, decide_eq_true_eq, Bool.and_eq_true, beq_iff_eq] at hle
  rcases hapart with h | h <;> omega

theorem sort_chain {es : List Edit} (hle : ∀ e ∈ es, e.span.start ≤ e.span.stop)
    (h : es.Pairwise (·.span.Apart ·.span)) :
    (sort es).Pairwise (·.span.stop ≤ ·.span.start) := by
  have hapart : (sort es).Pairwise (·.span.Apart ·.span) :=
    ((sort_perm es).pairwise_iff fun h => Span.Apart.symm h).mpr h
  refine (hapart.and (sort_sorted es)).imp_of_mem fun he hf hboth => ?_
  exact stop_le_of_le hboth.2 (hle _ ((sort_perm es).mem_iff.mp he))
    (hle _ ((sort_perm es).mem_iff.mp hf)) hboth.1

/-! ## Weaving -/

theorem insertedAt_append (es es' : List Edit) (offset : Nat) :
    insertedAt (es ++ es') offset = insertedAt es offset ++ insertedAt es' offset := by
  simp [insertedAt]

/-- Removing puts nothing anywhere. -/
theorem insertedAt_of_text {es : List Edit} (h : ∀ e ∈ es, e.text = []) (offset : Nat) :
    insertedAt es offset = [] := by
  simp only [insertedAt, List.flatMap_eq_nil_iff]
  exact fun e he => h e (List.mem_filter.mp he).1

theorem insertedAt_eq_nil {edits : List Edit} {offset : Nat}
    (h : ∀ e ∈ edits, offset < e.span.start) : insertedAt edits offset = [] := by
  unfold insertedAt
  rw [List.filter_eq_nil_iff.mpr]
  · rfl
  · intro e he
    have := h e he
    simp only [decide_eq_true_eq]
    rintro heq
    rw [heq] at this
    exact Nat.lt_irrefl _ this

theorem any_contains_eq_false {edits : List Edit} {offset : Nat}
    (h : ∀ e ∈ edits, offset < e.span.start) : edits.any (·.span.contains offset) = false := by
  rw [List.any_eq_false]
  intro e he
  have := h e he
  simp only [Span.contains, Bool.and_eq_true, decide_eq_true_eq]
  omega

/-- In front of the first edit the text stays as it is. -/
theorem weave_before {edits : List Edit} {offset : Nat} (kept cs : List Char)
    (h : ∀ e ∈ edits, offset + byteLength kept ≤ e.span.start) :
    weave edits offset (kept ++ cs) = kept ++ weave edits (offset + byteLength kept) cs := by
  induction kept generalizing offset with
  | nil => rfl
  | cons c kept ih =>
    have hpos := c.utf8Size_pos
    have hlt : ∀ e ∈ edits, offset < e.span.start := fun e he => by
      have := h e he
      simp only [byteLength_cons] at this
      omega
    rw [List.cons_append, weave, insertedAt_eq_nil hlt, any_contains_eq_false hlt, ih]
    · simp [Nat.add_assoc]
    · intro e he
      have := h e he
      simp only [byteLength_cons] at this
      omega

/-- An edit that lies behind is not seen any more. -/
theorem weave_cons_of_lt {e : Edit} {edits : List Edit} {offset : Nat} {cs : List Char}
    (hstart : e.span.start < offset) (hstop : e.span.stop ≤ offset) :
    weave (e :: edits) offset cs = weave edits offset cs := by
  have hins : ∀ o, offset ≤ o → insertedAt (e :: edits) o = insertedAt edits o := by
    intro o ho
    have hne : e.span ≠ ⟨o, o⟩ := by
      rintro heq
      rw [heq] at hstart
      exact absurd hstart (Nat.not_lt.mpr ho)
    simp [insertedAt, hne]
  have hany : ∀ o, offset ≤ o →
      (e :: edits).any (·.span.contains o) = edits.any (·.span.contains o) := by
    intro o ho
    have : e.span.contains o = false := by
      simp only [Span.contains, Bool.and_eq_false_imp, decide_eq_true_eq, decide_eq_false_iff_not]
      omega
    simp [this]
  induction cs generalizing offset with
  | nil => exact hins offset (Nat.le_refl _)
  | cons c cs ih =>
    have hpos := c.utf8Size_pos
    rw [weave, weave, hins offset (Nat.le_refl _), hany offset (Nat.le_refl _),
      ih (by omega) (by omega) (fun o ho => hins o (by omega)) (fun o ho => hany o (by omega))]

/-- A text that is inserted stands in front of what else becomes of the place. -/
theorem weave_insertion {e : Edit} {edits : List Edit} {offset : Nat} (cs : List Char)
    (h : e.span = ⟨offset, offset⟩) :
    weave (e :: edits) offset cs = e.text ++ weave edits offset cs := by
  have hins : insertedAt (e :: edits) offset = e.text ++ insertedAt edits offset := by
    simp [insertedAt, h]
  cases cs with
  | nil => exact hins
  | cons c cs =>
    have hpos := c.utf8Size_pos
    have hout : e.span.contains offset = false := by simp [Span.contains, h]
    have hstart : e.span.start < offset + c.utf8Size := by rw [h]; simp only; omega
    have hstop : e.span.stop ≤ offset + c.utf8Size := by rw [h]; simp only; omega
    rw [weave, weave, hins, weave_cons_of_lt hstart hstop]
    simp [hout]

/-- A stretch that is removed leaves nothing. -/
theorem weave_removal {e : Edit} {edits : List Edit} {offset : Nat} (gone cs : List Char)
    (hstart : e.span.start ≤ offset) (hstop : offset + byteLength gone = e.span.stop)
    (hlt : e.span.start < e.span.stop)
    (h : ∀ f ∈ edits, e.span.stop ≤ f.span.start) :
    weave (e :: edits) offset (gone ++ cs) = weave (e :: edits) e.span.stop cs := by
  induction gone generalizing offset with
  | nil =>
    rw [← hstop]
    rfl
  | cons c gone ih =>
    have hpos := c.utf8Size_pos
    simp only [byteLength_cons] at hstop
    have hin : e.span.contains offset = true := by
      simp only [Span.contains, Bool.and_eq_true, decide_eq_true_eq]
      omega
    have hne : e.span ≠ ⟨offset, offset⟩ := by
      rintro heq
      rw [heq] at hlt
      exact Nat.lt_irrefl _ hlt
    -- the other edits start where `e` stops, so nothing is inserted inside of it
    have hnone : insertedAt (e :: edits) offset = [] := by
      have hothers : insertedAt edits offset = [] := insertedAt_eq_nil fun f hf => by
        have := h f hf
        omega
      simpa [insertedAt, List.filter_cons, hne] using hothers
    rw [List.cons_append, weave, hnone, ih (by omega) (by omega)]
    simp [hin]

theorem weave_nil (offset : Nat) (cs : List Char) : weave [] offset cs = cs := by
  simpa [weave, insertedAt] using @weave_before [] offset cs [] (by simp)

/-- What a single insertion makes of a text. -/
theorem weave_insertAt (kept text cs : List Char) :
    weave [insertAt (byteLength kept) text] 0 (kept ++ cs) = kept ++ (text ++ cs) := by
  rw [weave_before kept cs (by simp [insertAt]), weave_insertion cs (by simp [insertAt]), weave_nil]
  rfl

/-! ## Applying -/

/-- What is kept between two places of a text is what stands between them. -/
theorem keep_eq {text kept cs : List Char} {start stop : Nat} (h : From text start (kept ++ cs))
    (hstop : start + byteLength kept = stop) : keep text start stop = .ok kept := by
  obtain ⟨before, rfl, rfl⟩ := h
  subst hstop
  have hle : byteLength before + byteLength kept ≤ byteLength (before ++ (kept ++ cs)) := by
    simp only [byteLength_append]
    omega
  rw [keep, Nat.min_eq_left hle]
  by_cases hkept : kept = []
  · subst hkept
    simp
  · have hpos : byteLength kept ≠ 0 := fun h => hkept (byteLength_eq_zero.mp h)
    simp only [slice?_append]
    rw [if_pos (by omega)]

theorem applyFrom_eq_weave {text rest : List Char} {offset : Nat} {es : List Edit}
    (hrest : From text offset rest) (hfits : ∀ e ∈ es, e.Fits text)
    (hoffset : ∀ e ∈ es, offset ≤ e.span.start)
    (hchain : es.Pairwise (·.span.stop ≤ ·.span.start)) :
    applyFrom text offset es = .ok (weave es offset rest) := by
  induction es generalizing offset rest with
  | nil =>
    rw [weave_nil, applyFrom]
    refine keep_eq (show From text offset (rest ++ []) by rwa [List.append_nil]) ?_
    obtain ⟨before, rfl, rfl⟩ := hrest
    simp
  | cons e es ih =>
    obtain ⟨hhead, htail⟩ := List.pairwise_cons.mp hchain
    obtain ⟨hle, ⟨atStart, hstart⟩, ⟨atStop, hstop⟩, hpure⟩ := hfits e (by simp)
    have hoff := hoffset e (by simp)
    -- the text from `offset` on is what is kept, what goes, and the rest
    obtain ⟨kept, hkept, hkeptLen⟩ := From.sub hrest hstart hoff
    obtain ⟨gone, hgone, hgoneLen⟩ := From.sub hstart hstop hle
    subst hkept hgone
    rw [applyFrom, if_neg (by omega), if_neg (by omega), keep_eq hrest hkeptLen,
      ih hstop (fun f hf => hfits f (by simp [hf])) hhead htail]
    change Except.ok (kept ++ e.text ++ weave es e.span.stop atStop) = _
    rw [weave_before kept _ (fun f hf => by
      rcases List.mem_cons.mp hf with rfl | hf
      · omega
      · have := hhead f hf
        omega),
      hkeptLen]
    -- an edit removes or inserts, never both
    rcases Nat.lt_or_ge e.span.start e.span.stop with hlt | hge
    · have htext : e.text = [] := hpure.resolve_right (by omega)
      rw [weave_removal gone atStop (Nat.le_refl _) hgoneLen hlt hhead,
        weave_cons_of_lt hlt (Nat.le_refl _), htext]
      simp
    · have hspan : e.span = ⟨e.span.start, e.span.start⟩ := by
        obtain ⟨⟨start, stop⟩, text⟩ := e
        simp only [Span.mk.injEq, true_and]
        simp only at hle hge
        omega
      have hgoneNil : gone = [] := byteLength_eq_zero.mp (by omega)
      subst hgoneNil
      rw [weave_insertion _ hspan, List.nil_append,
        show e.span.stop = e.span.start by omega]
      simp

/-- Without edits a text is kept as it is. -/
@[simp] theorem applyAll_nil (text : List Char) : applyAll text [] = .ok text := by
  have hend : From text 0 (text ++ []) := by
    rw [List.append_nil]
    exact From.start text
  exact keep_eq hend (Nat.zero_add _)

/-- **Edits that do not overlap are applied, and the result is the woven text.** -/
theorem applyAll_eq_weave {text : List Char} {edits : List Edit}
    (hfits : ∀ e ∈ edits, e.Fits text) (hapart : edits.Pairwise (·.span.Apart ·.span)) :
    applyAll text edits = .ok (weave edits 0 text) := by
  have hmem : ∀ e ∈ sort edits, e ∈ edits := fun e he => (sort_perm edits).mem_iff.mp he
  rw [applyAll, applyFrom_eq_weave (From.start text) (fun e he => hfits e (hmem e he))
    (fun e _ => Nat.zero_le _) (sort_chain (fun e he => (hfits e he).le) hapart), weave_sort]

end Edit

end AmdModules
