import AmdModules.Proofs.Layout.Program
import AmdModules.Proofs.Reread.Literal
import AmdModules.Proofs.Reread.Module

/-!
# Filled programs

The grammar retraces itself, with some unrollings more, in a filled text (`grammar_rereads`), by
induction on the number of unrollings. So a text that is accepted with nothing forgiven is accepted
with what is put in, and the tree is that of the text with the arguments that were put in
(`parse_filled`).
-/

set_option autoImplicit false

namespace AmdModules.Script

open Text Yields
open AmdModules.Script.Parser
open Loader (Call)

variable {text : List Char} {f : Filling text}

/-! ## The grammar -/

theorem grammar_rereads {extra : Nat} (hextra : 4 ≤ extra)
    (hlegible : ∀ n, f.Legible (grammar (n + extra))) (n : Nat) :
    (grammar n).Rereads f (grammar (n + extra)) := by
  have hlimit (n : Nat) : (grammar n).limit = n := by cases n <;> rfl
  have hroom (n : Nat) : (grammar n).limit + 4 ≤ (grammar (n + extra)).limit := by
    rw [hlimit, hlimit]
    omega
  have hliteral {n : Nat} {c : Context} {s t : State} {value : String} {node : Node}
      (hs : s.reading.token.kind = .string value)
      (hnext : s.next.reading.token.kind = .mark "," ∨ s.next.reading.token.kind = .mark ")")
      (hrun : element (grammar n) c s = .done node t) :
      node = .mk (.string value) s.reading.token.span [] ∧ t = s.next :=
    string_of_element hs (hnext.imp_right .inl) hrun
  induction n with
  | zero =>
    have hnever (goal : Goal) : (grammar 0).parse goal = Parser.exhausted := rfl
    have hshuns (goal : Goal) : Shuns ((grammar 0).parse goal) := fun _ _ _ _ _ _ h => by cases h
    exact ⟨grammar_lays text 0, hroom 0, hlegible 0, hliteral, hshuns _, hshuns _,
      fun _ => .exhausted, .exhausted, .exhausted, .exhausted, .exhausted, fun _ => .exhausted,
      fun _ _ _ => .exhausted⟩
  | succ n ih =>
    have hroom' := hroom (n + 1)
    have hlegible' := hlegible (n + 1)
    rw [Nat.succ_add] at hroom' hlegible' ⊢
    exact ⟨grammar_lays text (n + 1), hroom', hlegible', hliteral,
      assignment_shuns ih, unary_shuns _, fun declarations => statement_rereads ih declarations,
      assignment_rereads ih, unary_rereads ih, constructed_rereads ih, leftHandSide_rereads ih,
      fun lexical => binding_rereads ih lexical,
      fun floor hleft h => operators_retraces ih hleft h⟩

/-! ## Whole texts -/

/-- A text as the characters of a class it starts with, and the rest. -/
theorem span_append {p : Char → Bool} {passed rest : List Char} (hpassed : ∀ c ∈ passed, p c = true)
    (hrest : ∀ c ∈ rest.head?, p c = false) : (passed ++ rest).span p = (passed, rest) := by
  rw [List.span_eq_takeWhile_dropWhile, List.takeWhile_append_of_pos hpassed,
    List.dropWhile_append_of_pos hpassed]
  cases rest with
  | nil => simp
  | cons c rest => simp [hrest c (by simp)]

/-- A first line that starts with `#!` is passed over in both texts. -/
theorem skipHashbang_fill (hcalm : ∀ x, 0 < x → x ≤ (skipHashbang text).1 → f.put x = []) :
    skipHashbang (f.fill text) = ((skipHashbang text).1, f.fill (skipHashbang text).2) := by
  have hlook : startsWith ['#', '!'] (f.fill text) = startsWith ['#', '!'] text :=
    Filling.startsWith_fill (List.suffix_refl text) (by decide)
  unfold skipHashbang at hcalm ⊢
  rw [hlook]
  split at hcalm
  · rename_i hstarts
    obtain ⟨line, rest, htext, hline, hrest, -⟩ := exists_class (fun c => !isLineEnd c) text
    have hspan : text.span (fun c => !isLineEnd c) = (line, rest) := by
      rw [htext]
      exact span_append hline hrest
    simp only [hspan] at hcalm
    have hfrom : From text 0 (line ++ rest) := by
      rw [← htext]
      exact .start text
    have hfill : f.fill (line ++ rest) = line ++ f.fill rest :=
      Filling.fill_quiet hfrom (by simpa using hcalm)
    have hspan' : (f.fill text).span (fun c => !isLineEnd c) = (line, f.fill rest) := by
      rw [congrArg f.fill htext, hfill]
      exact span_append hline (by rwa [Filling.head?_fill])
    simp only [if_pos hstarts, hspan, hspan']
  · rename_i hstarts
    simp only [if_neg hstarts]

/-- Before anything is put in both parsers stand at the same place. -/
theorem twin_start {offset : Nat} {rest : List Char} (h : From text offset rest)
    (hcalm : ∀ x, x ≤ offset → f.put x = []) (inModule : Bool) :
    State.Twin f ⟨readToken true [] offset rest, offset, inModule⟩
      ⟨readToken true [] offset (f.fill rest), offset, inModule⟩ := by
  refine ⟨⟨true, rest, [], [], h, rfl, rfl⟩, ?_, rfl⟩
  obtain ⟨before, htext, rfl⟩ := h
  have hbegin : f.Moved 0 0 := ⟨text, .start text, Nat.zero_add _⟩
  have hfrom : From text 0 (before ++ rest) := by
    rw [← htext]
    exact .start text
  have hmoved := hbegin.append hfrom fun x _ hle => hcalm x (by omega)
  rwa [Nat.zero_add] at hmoved

/-- The statements of a program are read again. -/
theorem programItems_twin {g g' : Grammar} {dialect : Dialect} {s t : State} {items : List Node}
    (hg : g.Rereads f g') (hmarkup : dialect.markup = false) (hs : s.On text)
    (hrun : programItems g { dialect with forgiving := false } { } s = .done items t) :
    Moves text [] s items t ∧ ∀ s', s.Twin f s' → s.Calm f → Covers f s t items →
      ∃ items' t', programItems g' dialect { } s' = .done items' t' ∧ f.AlikeAll items items'
        ∧ t.Twin f t' := by
  have hrereads : Rereads f
      (manyUntil atEnd (do return [← g.parse (.statement true)]) g.limit)
      (manyUntil atEnd (do return [← g'.parse (.statement true)]) g'.limit) :=
    manyUntil_rereads .atEnd (singleton_rereads (hg.statement true)) hg.limit
  -- the surroundings differ in what is forgiven
  let around (forgiving : Bool) : Context :=
    { topLevel := dialect.source != .script
      strict := s.reading.token.kind == .string "use strict"
      markup := dialect.markup
      forgiving }
  have hplain : (around false).Plain text := ⟨hmarkup, rfl, nofun⟩
  have hrun' : manyUntil atEnd (do return [← g.parse (.statement true)]) g.limit (around false) s
      = .done items t := hrun
  refine ⟨hrereads.moves hplain hs hrun', fun s' hs' hcalm hcovers => ?_⟩
  have hother : (around false).Twin f (around dialect.forgiving) :=
    ⟨none, dialect.forgiving, rfl, .none⟩
  obtain ⟨items', t', hrun'', hitems, ht⟩ := hrereads.twin hplain hs hrun' hother hs' hcalm hcovers
  refine ⟨items', t', ?_, hitems, ht⟩
  have hkind := (hs'.seems (hcalm.clear hs)).kind
  rw [← hrun'', show around dialect.forgiving =
    { topLevel := dialect.source != .script
      strict := s'.reading.token.kind == .string "use strict"
      markup := dialect.markup
      forgiving := dialect.forgiving } by rw [hkind]]
  rfl

/-- **A filled text is read again.** If a text is accepted with nothing forgiven, and what is put in
belongs to the calls of its tree and can be read, the filled text is accepted, and its tree is that
of the text with the arguments that were put in. -/
theorem parse_filled {dialect : Dialect} {program : Program} (hmarkup : dialect.markup = false)
    (hparse : parse { dialect with forgiving := false } text = some program)
    (hput : ∀ x, f.put x ≠ [] → ∃ call, f.owns x call ∧ (x, call) ∈ sites text [program.root])
    (hgrows : text.length < (f.fill text).length)
    (hlegible : ∀ n, f.Legible (grammar (n + 8 * ((f.fill text).length - text.length)))) :
    ∃ program', parse dialect (f.fill text) = some program'
      ∧ f.Alike program.root program'.root := by
  obtain ⟨extra, hextra⟩ : ∃ extra, 8 * ((f.fill text).length - text.length) = extra := ⟨_, rfl⟩
  rw [hextra] at hlegible
  have hmore : 8 * ((f.fill text).length + 2) = 8 * (text.length + 2) + extra := by omega
  have hg := grammar_rereads (by omega) hlegible (8 * (text.length + 2))
  rw [← hmore] at hg
  have hfrom := skipHashbang_from text
  have hskip := skipHashbang_fill (f := f)
  unfold parse at hparse ⊢
  generalize skipHashbang text = start at hparse hfrom hskip
  obtain ⟨offset, rest⟩ := start
  simp only at hparse hfrom hskip
  split at hparse
  case h_2 | h_3 => cases hparse
  rename_i items t hrun
  cases hparse
  have hs : State.On text
      ⟨readToken true [] offset rest, offset, dialect.source == .module⟩ :=
    ⟨true, rest, [], hfrom, rfl, by simp⟩
  obtain ⟨hmoves, htwin⟩ := programItems_twin hg hmarkup hs hrun
  have hkind : (if t.inModule = true then Kind.module else Kind.script) ≠ .call := by
    split <;> nofun
  rw [sites_mk hkind] at hput
  -- the first call lies behind the first token
  have hhorizon := hs.lastEnd_lt_horizon
  have hquiet : ∀ x, x < State.horizon ⟨readToken true [] offset rest, offset,
      dialect.source == .module⟩ → f.put x = [] := by
    intro x hlt
    by_contra hne
    obtain ⟨call, -, hsite⟩ := hput x hne
    rcases hmoves.found _ hsite with hx | ⟨hle, -⟩
    · exact absurd hx (by simp)
    · exact absurd hlt (Nat.not_lt.mpr hle)
  have hfront : ∀ x, x ≤ offset → f.put x = [] := fun x hle => hquiet x (by
    simp only at hhorizon
    omega)
  obtain ⟨items', t', hrun', hitems, ht⟩ := htwin _ (twin_start hfrom hfront _)
    (fun x _ hlt => hquiet x hlt) fun x _ _ hx => hput x hx
  rw [hskip fun x _ hle => hfront x hle]
  dsimp only
  rw [hrun']
  refine ⟨_, rfl, ?_⟩
  rw [ht.inModule]
  exact .mk hkind _ _ hitems

end AmdModules.Script
