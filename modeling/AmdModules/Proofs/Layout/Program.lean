import AmdModules.Proofs.Layout.Module

/-!
# Programs

The layout of an accepted text: its whole tree is held by the parser when the text has ended, so
all places the tree asks for lie in the text and apart from each other (`parse_owned`).
-/

set_option autoImplicit false

namespace AmdModules.Script

open Text Yields

/-- Behind a first line that starts with `#!` the rest of the text stands. -/
theorem skipHashbang_from (text : List Char) :
    From text (skipHashbang text).1 (skipHashbang text).2 := by
  unfold skipHashbang
  split
  · refine ⟨(text.span fun c => !isLineEnd c).1, ?_, rfl⟩
    rw [List.span_eq_takeWhile_dropWhile]
    exact List.takeWhile_append_dropWhile.symm
  · exact .start text

/-- The statements of a program are laid out, whatever the reading starts with. -/
theorem programItems_lays {text : List Char} {dialect : Dialect} (h : dialect.markup = false)
    (n : Nat) : Parser.Lays text (programItems (grammar n) dialect) := by
  intro lo
  refine .read .token fun t c s hc hs hF hΓ => ?_
  exact Parser.manyUntil_lays .atEnd
    (Parser.singleton_lays ((grammar_lays text n).statement true)) _ lo _ s h hs hF hΓ

/-- **The tree of an accepted text is laid out in the text.** -/
theorem parse_owned {text : List Char} {dialect : Dialect} {program : Program}
    (hmarkup : dialect.markup = false) (h : parse dialect text = some program) :
    ∃ s : State, s.On text ∧ program.comments = s.reading.comments.reverse
      ∧ Owned text 0 s [program.root] := by
  have hfrom := skipHashbang_from text
  unfold parse at h
  generalize skipHashbang text = start at h hfrom
  obtain ⟨offset, rest⟩ := start
  simp only at h hfrom
  split at h
  · rename_i items s hrun
    obtain rfl := Option.some.inj h
    have hs : State.On text
        ⟨readToken true [] offset rest, offset, dialect.source == .module⟩ :=
      ⟨true, rest, [], hfrom, rfl, by simp⟩
    obtain ⟨hreach, -, -, howned⟩ := (programItems_lays hmarkup _).done rfl hs hrun
    refine ⟨s, hreach.on, rfl, (howned.mono (Nat.zero_le _)).within (.mk ?_ ?_)⟩
    · split <;> rfl
    · rw [List.append_nil]
      exact .refl _
  · cases h
  · cases h

end AmdModules.Script
