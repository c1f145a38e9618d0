import AmdModules.Text.Split

/-!
# Patterns

Regular expressions as far as they are needed: a pattern matches a piece of a text between what
stands in front of it and behind it, which only the two anchors look at. `IsMatch` is the search for
such a piece anywhere in a text.

A pattern without anchors only looks at the piece it matches (`Means`). Repeated it matches a text
that is put together of such pieces, and between both anchors the search for it is a question about
the whole text (`Means.many`, `Means.isMatch_anchored`).
-/

set_option autoImplicit false

namespace AmdModules.Text

/-- A regular expression. -/
inductive Pattern where
  /-- The start of the text. -/
  | start
  /-- The end of the text. -/
  | stop
  /-- One character. -/
  | one (allowed : Char → Bool)
  /-- One pattern behind the other. -/
  | seq (p q : Pattern)
  /-- Any number of times. -/
  | many (p : Pattern)

namespace Pattern

/-- Pieces that match, each behind those before it. -/
inductive Repeats (step : List Char → List Char → List Char → Prop) :
    List Char → List Char → List Char → Prop where
  | nil (before after : List Char) : Repeats step before [] after
  | cons {before first others after : List Char}
      (hfirst : step before first (others ++ after))
      (hothers : Repeats step (before ++ first) others after) :
      Repeats step before (first ++ others) after

/-- Whether a pattern matches `inside` between `before` and `after`. -/
def Matches : Pattern → List Char → List Char → List Char → Prop
  | start, before, inside, _ => before = [] ∧ inside = []
  | stop, _, inside, after => inside = [] ∧ after = []
  | one allowed, _, inside, _ => ∃ c, inside = [c] ∧ allowed c = true
  | seq p q, before, inside, after => ∃ first second, inside = first ++ second
      ∧ p.Matches before first (second ++ after) ∧ q.Matches (before ++ first) second after
  | many p, before, inside, after => Repeats p.Matches before inside after

/-- Whether a pattern matches somewhere in a text. -/
def IsMatch (p : Pattern) (text : List Char) : Prop :=
  ∃ before inside after, text = before ++ inside ++ after ∧ p.Matches before inside after

/-- A pattern that only looks at what it matches. -/
def Means (p : Pattern) (P : List Char → Prop) : Prop :=
  ∀ before inside after, p.Matches before inside after ↔ P inside

namespace Means

variable {p q : Pattern} {P Q : List Char → Prop}

theorem congr (hp : p.Means P) (h : ∀ inside, P inside ↔ Q inside) : p.Means Q :=
  fun before inside after => (hp before inside after).trans (h inside)

theorem one (allowed : Char → Bool) :
    (Pattern.one allowed).Means fun inside => ∃ c, inside = [c] ∧ allowed c = true :=
  fun _ _ _ => Iff.rfl

theorem seq (hp : p.Means P) (hq : q.Means Q) :
    (p.seq q).Means fun inside =>
      ∃ first second, inside = first ++ second ∧ P first ∧ Q second := by
  intro before inside after
  constructor
  · rintro ⟨first, second, hinside, hfirst, hsecond⟩
    exact ⟨first, second, hinside, (hp _ _ _).mp hfirst, (hq _ _ _).mp hsecond⟩
  · rintro ⟨first, second, hinside, hfirst, hsecond⟩
    exact ⟨first, second, hinside, (hp _ _ _).mpr hfirst, (hq _ _ _).mpr hsecond⟩

/-- A repetition matches what is put together of pieces. -/
theorem many (hp : p.Means P) :
    p.many.Means fun inside => ∃ pieces : List (List Char),
      inside = pieces.flatten ∧ ∀ piece ∈ pieces, P piece := by
  intro before inside after
  constructor
  · intro h
    change Repeats _ _ _ _ at h
    induction h with
    | nil before after => exact ⟨[], rfl, by simp⟩
    | cons hfirst hothers ih =>
      obtain ⟨pieces, rfl, hpieces⟩ := ih
      refine ⟨_ :: pieces, rfl, List.forall_mem_cons.mpr ⟨(hp _ _ _).mp hfirst, hpieces⟩⟩
  · rintro ⟨pieces, rfl, hpieces⟩
    induction pieces generalizing before with
    | nil => exact .nil before after
    | cons piece pieces ih =>
      obtain ⟨hpiece, hpieces⟩ := List.forall_mem_cons.mp hpieces
      exact .cons ((hp _ _ _).mpr hpiece) (ih _ hpieces)

/-- A repetition of one character. -/
theorem many_one (allowed : Char → Bool) :
    (Pattern.one allowed).many.Means fun inside => ∀ c ∈ inside, allowed c = true := by
  refine (Means.one allowed).many.congr fun inside => ?_
  constructor
  · rintro ⟨pieces, rfl, hpieces⟩ c hc
    obtain ⟨piece, hpiece, hc⟩ := List.mem_flatten.mp hc
    obtain ⟨d, rfl, hd⟩ := hpieces piece hpiece
    rwa [List.mem_singleton.mp hc]
  · intro hall
    refine ⟨inside.map ([·]), ?_, ?_⟩
    · rw [← List.flatMap_def, List.flatMap_singleton']
    · intro piece hpiece
      obtain ⟨c, hc, rfl⟩ := List.mem_map.mp hpiece
      exact ⟨c, rfl, hall c hc⟩

/-- Between both anchors a pattern has to match the whole text. -/
theorem isMatch_anchored (hp : p.Means P) (text : List Char) :
    (Pattern.start.seq (p.seq .stop)).IsMatch text ↔ P text := by
  constructor
  · rintro ⟨before, inside, after, rfl, first, second, rfl, ⟨rfl, rfl⟩, third, fourth, rfl, hthird,
      rfl, rfl⟩
    simpa using (hp _ _ _).mp hthird
  · intro h
    exact ⟨[], text, [], by simp, [], text, rfl, ⟨rfl, rfl⟩, text, [], by simp,
      (hp _ _ _).mpr h, rfl, rfl⟩

end Means

end Pattern

end AmdModules.Text
