import AmdModules.Proofs.Layout.Arguments

/-!
# Members, templates and regular expressions

Templates and regular expressions are no tokens: the parser jumps over their text, to a place that
lies behind it. What follows an operand takes the operand in; where nothing follows, the parser
still stands right behind it.
-/

set_option autoImplicit false

namespace AmdModules.Script

open Text Yields

/-! ## Jumps -/

theorem readChunk_from {text cs : List Char} {wellFormed escaped : Bool} {offset : Nat}
    {chunk : Chunk} (hcs : From text offset cs)
    (h : readChunk wellFormed escaped offset cs = some chunk) :
    From text chunk.offset chunk.rest ∧ offset < chunk.offset := by
  fun_induction readChunk wellFormed escaped offset cs
  case case1 => exact absurd h (by simp)
  case case3 =>
    cases h
    exact ⟨hcs.tail, Nat.lt_add_of_pos_right (Char.utf8Size_pos _)⟩
  case case4 hopen =>
    cases h
    simp only [Bool.and_eq_true, beq_iff_eq, startsWith_iff] at hopen
    obtain ⟨rfl, rest, rfl⟩ := hopen
    have hbrace := hcs.tail.tail
    have hsize : '$'.utf8Size = 1 ∧ '\x7b'.utf8Size = 1 := by decide
    rw [hsize.1, hsize.2] at hbrace
    exact ⟨hbrace, Nat.lt_add_of_pos_right (by decide)⟩
  all_goals
    rename_i ih
    obtain ⟨hfrom, hlt⟩ := ih hcs.tail h
    exact ⟨hfrom, Nat.lt_of_le_of_lt (Nat.le_add_right _ _) hlt⟩

theorem readRegexp_from {text cs rest : List Char} {escaped inClass : Bool} {offset stop : Nat}
    (hcs : From text offset cs) (h : readRegexp escaped inClass offset cs = some (stop, rest)) :
    From text stop rest ∧ offset < stop := by
  fun_induction readRegexp escaped inClass offset cs
  case case1 | case2 => exact absurd h (by simp)
  case case4 =>
    obtain ⟨rfl, rfl⟩ : _ = stop ∧ _ = rest := by simpa using h
    exact ⟨hcs.tail, Nat.lt_add_of_pos_right (Char.utf8Size_pos _)⟩
  all_goals
    rename_i ih
    obtain ⟨hfrom, hlt⟩ := ih hcs.tail h
    exact ⟨hfrom, Nat.lt_of_le_of_lt (Nat.le_add_right _ _) hlt⟩

/-- A slash is the first character of a regular expression, whatever mark it was read as. -/
theorem State.On.behind_slash {text : List Char} {s : State} (hs : s.On text)
    (h : s.reading.token.kind = .mark "/" ∨ s.reading.token.kind = .mark "/=") :
    From text (s.reading.hereOffset + 1) (s.reading.here.drop 1) := by
  have hhere := hs.from_here
  obtain ⟨rest, hslash⟩ : ∃ rest, s.reading.here = '/' :: rest := by
    rcases h with h | h
    · exact ⟨_, hs.here_of_mark h⟩
    · exact ⟨_, hs.here_of_mark h⟩
  rw [hslash] at hhere ⊢
  exact hhere.tail

namespace Parser

variable {text : List Char} {g : Grammar} {lo : Nat} {Γ : List Node}

/-- A jump forward drops nothing. -/
theorem Tracks.jump {s : State} {offset : Nat} {cs : List Char} (hcs : From text offset cs)
    (hle : s.reading.hereOffset ≤ offset) :
    Tracks text lo (· = s) Γ (Parser.jump offset cs) (Leaves text lo Γ) := by
  rintro c _ hc hs rfl hΓ
  have hreach := (hs.jump hcs hle).2
  exact ⟨hreach, trivial, trivial, hΓ.reaches hreach⟩

theorem chunk_tracks (tagged : Bool) {s : State} (hs : s.On text) :
    Tracks text lo (· = s) Γ (chunk tagged s.reading.token.span.stop s.reading.rest)
      (Leaves text lo Γ) := by
  unfold chunk
  split
  · rename_i c hchunk
    obtain ⟨hfrom, hlt⟩ := readChunk_from hs.from_rest hchunk
    have hle := Nat.le_trans hs.here_le (Nat.le_of_lt hlt)
    refine .ite (.bind (.jump hfrom hle) fun _ _ => ?_) .refuse
    exact .pure (fun _ _ => trivial) trivial (.refl _)
  · exact .refuse

theorem regexp_tracks :
    Tracks text lo (fun s => s.reading.token.kind = .mark "/" ∨ s.reading.token.kind = .mark "/=")
      Γ regexp (Leaves text lo Γ) := by
  refine .position fun start hstart => .state fun s hs hslash => ?_
  split
  · rename_i offset rest hread
    obtain ⟨hfrom, hlt⟩ := readRegexp_from (hs.behind_slash hslash) hread
    rw [List.span_eq_takeWhile_dropWhile]
    rw [← List.takeWhile_append_dropWhile (p := isNamePart) (l := rest)] at hfrom
    refine .bind (.jump hfrom.append (by omega)) fun _ _ => ?_
    exact .node rfl hstart (.refl _)
  · exact .refuse

theorem expression_lays (hg : g.Lays text) : Lays text (expression g) := by
  intro lo
  refine .position fun start hstart => .step hg.assignment fun first hfirst => ?_
  refine .readIf (.isMark _) ?_ (.pure (fun _ h => h) hfirst (.refl _))
  refine .step (manyUntil_lays (.notMark _) (fun lo => ?_) _) fun others _ => ?_
  · refine .step advance_lays fun _ _ => .step hg.assignment fun n _ => ?_
    exact .pure (fun _ _ => trivial) trivial (.refl _)
  · exact .node rfl hstart (by grind)

theorem substitutions_lays (hg : g.Lays text) (tagged : Bool) (limit : Nat) :
    Lays text (substitutions g tagged limit) := by
  induction limit with
  | zero => exact fun _ => .exhausted
  | succ limit ih =>
    intro lo
    refine .step (allowingIn_lays (expression_lays hg)) fun value _ => ?_
    refine .readIf (.isMark _) (.state fun s hs _ => ?_) .refuse
    refine .bind (chunk_tracks tagged hs) fun b _ => ?_
    refine .ite (.pure (fun _ _ => trivial) trivial (.refl _)) ?_
    exact .step ih fun others _ => .pure (fun _ _ => trivial) trivial (by grind)

theorem template_lays (hg : g.Lays text) (tagged : Bool) : Lays text (template g tagged) := by
  intro lo
  refine .position fun start hstart => .state fun s hs _ => ?_
  refine .bind (chunk_tracks tagged hs) fun b _ => ?_
  refine .ite (.node rfl hstart (.refl _)) ?_
  exact .step (substitutions_lays hg tagged _) fun parts _ => .node rfl hstart (.refl _)

theorem memberName_lays : Lays text memberName :=
  fun lo => .readIf (.isMark _) (privateName_lays lo) (anyName_lays lo)

/-! ## What follows an operand -/

/-- What follows an operand takes it in; where nothing does, the operand is still in hand. -/
theorem subscript_tracks (hg : g.Lays text) {calls brackets : Bool} {operand : Node}
    (hoperand : begins text lo operand) :
    Tracks text lo (ends text · operand) (operand :: Γ) (subscript g calls brackets operand)
      (fun r => Leaves text lo Γ (r.getD operand)) := by
  have hstart := hoperand.1
  have hgive {n : Node} (hn : begins text lo n) : Tracks text lo (ends text · n) (n :: Γ)
      (pure (some n) : Parser (Option Node)) (fun r => Leaves text lo Γ (r.getD operand)) :=
    .give fun s hs hΓ => ⟨hn, hs, hΓ⟩
  refine .readIf (.isMark _) (.ite .refuse ?_) ?_
  · refine .step advance_lays fun _ _ => .read (.isMark _) fun b => ?_
    refine .ite ?_ (.readIf (.isMark _) ?_ ?_)
    · refine .step advance_lays fun _ _ => ?_
      refine .step (allowingIn_lays (expression_lays hg)) fun inner _ => ?_
      refine .step (expect_lays _) fun _ _ => ?_
      exact .bindNode Γ rfl hstart (by grind) fun n hn => hgive hn
    · refine .step (arguments_lays hg) fun items _ => ?_
      exact .bindNode Γ rfl hstart (by grind) fun n hn => hgive hn
    · refine .step memberName_lays fun name _ => ?_
      exact .bindNode Γ rfl hstart (by grind) fun n hn => hgive hn
  · refine .read (.isMark _) fun b => ?_
    refine .ite (.ite .refuse ?_) (.read (.isMark _) fun b' => .ite ?_ ?_)
    · refine .step advance_lays fun _ _ => ?_
      refine .step (allowingIn_lays (expression_lays hg)) fun inner _ => ?_
      refine .step (expect_lays _) fun _ _ => ?_
      exact .bindNode Γ (by split <;> rfl) hstart (by grind) fun n hn => hgive hn
    · refine .bindPost (arguments_tracks hg hoperand) fun items => ?_
      rcases hkind : callKind operand items with ⟨kind, parts⟩
      exact .bind (.callNode hkind hstart) fun n hn => hgive hn
    · refine .eatIf (eat_eats _) (.ite ?_ ?_) (.ite .refuse (.readIf (.isMark _) ?_ ?_))
      · refine .eatIf (eatWord_eats _) ?_ .refuse
        exact .bindNode Γ rfl hstart (by grind) fun n hn => hgive hn
      · refine .step memberName_lays fun name _ => ?_
        exact .bindNode Γ (by split <;> rfl) hstart (by grind) fun n hn => hgive hn
      · refine .step (template_lays hg _) fun part _ => ?_
        exact .bindNode Γ rfl hstart (by grind) fun n hn => hgive hn
      · exact .give fun s hs hΓ => ⟨hoperand, hs, hΓ⟩

theorem subscripts_tracks (hg : g.Lays text) {calls brackets : Bool} (limit : Nat) {operand : Node}
    (hoperand : begins text lo operand) :
    Tracks text lo (ends text · operand) (operand :: Γ) (subscripts g calls brackets limit operand)
      (Leaves text lo Γ) := by
  induction limit generalizing operand with
  | zero => exact .exhausted
  | succ limit ih =>
    refine .bindPost (subscript_tracks hg hoperand) fun r => ?_
    cases r with
    | none => exact .give fun s hs _ => hs
    | some longer =>
      intro c s hc hs hlonger _
      exact ih hlonger.1 c s hc hs hlonger.2.1 hlonger.2.2

theorem decorators_lays (hg : g.Lays text) : Lays text (decorators g) := by
  refine manyUntil_lays (.notMark _) (fun lo => ?_) _
  refine .position fun start hstart => .step advance_lays fun _ _ => .eatIf (eat_eats _) ?_ ?_
  · refine .step (expression_lays hg) fun inner _ => .step (expect_lays _) fun _ _ => ?_
    refine .bindNode [] rfl hstart (by grind) fun n _ => ?_
    exact .pure (fun _ _ => trivial) trivial (.refl _)
  · refine .step (identifier_lays _ _) fun name hname => ?_
    refine .bind (subscripts_tracks hg _ hname) fun inner _ => ?_
    refine .bindNode [] rfl hstart (by grind) fun n _ => ?_
    exact .pure (fun _ _ => trivial) trivial (.refl _)

end Parser

end AmdModules.Script
