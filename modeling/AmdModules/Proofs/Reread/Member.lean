import AmdModules.Proofs.Reread.Arguments

/-!
# Members and templates of a filled text

The parser jumps over the text of templates and regular expressions. Nothing is put in there, so it
jumps over the same text in the filled text. What follows an operand is read again with what is put
in among the arguments of a call.
-/

set_option autoImplicit false

namespace AmdModules.Script

open Text Yields Mirrors

variable {text : List Char} {f : Filling text} {Γ : List Node} {s s' t : State}

/-! ## Jumps -/

/-- Where no tree is read nothing may be put in. -/
theorem Covers.put_eq_nil (h : Covers f s t []) {x : Nat} (hlo : s.horizon ≤ x)
    (hhi : x < t.horizon) : f.put x = [] := by
  by_contra hput
  obtain ⟨call, -, hsite⟩ := h x hlo hhi hput
  exact absurd hsite (by simp)

/-- Over a stretch without trees nothing is put in. -/
theorem State.Calm.quiet (h : s.Calm f) (hcovers : Covers f s t []) (ht : t.On text) {x : Nat}
    (hlo : s.lastEnd < x) (hhi : x ≤ t.lastEnd) : f.put x = [] := by
  rcases Nat.lt_or_ge x s.horizon with hx | hx
  · exact h x hlo hx
  · exact hcovers.put_eq_nil hx (Nat.lt_of_le_of_lt hhi ht.lastEnd_lt_horizon)

/-- A jump to a place behind what has been looked at. -/
theorem Moves.jump (hs : s.On text) {offset : Nat} {cs : List Char} (hcs : From text offset cs)
    (hle : s.reading.hereOffset ≤ offset) (hhorizon : s.horizon ≤ offset + 1) :
    Moves text Γ s [] (s.jump offset cs) := by
  obtain ⟨hreads, hreach⟩ := hs.jump hcs hle
  exact ⟨hreach, Nat.le_trans hhorizon hreads.on.lastEnd_lt_horizon, by simp⟩

namespace Parser

variable {g g' : Grammar} {c c' : Context}

/-- The part of a template behind the token. -/
theorem chunk_retraces (tagged : Bool) :
    Retraces f (fun s => s.reading.token.kind = .mark "`" ∨ s.reading.token.kind = .mark "\x7d") Γ
      (state >>= fun s => chunk tagged s.reading.token.span.stop s.reading.rest)
      (state >>= fun s => chunk tagged s.reading.token.span.stop s.reading.rest) := by
  intro c s t b hc hs hkind hΓ hrun
  change chunk tagged s.reading.token.span.stop s.reading.rest c s = _ at hrun
  cases hpart : readChunk true false s.reading.token.span.stop s.reading.rest with
  | some part =>
    rw [chunk, hpart] at hrun
    dsimp only at hrun
    split at hrun
    · rename_i hok
      cases hrun
      obtain ⟨hfrom, hlt⟩ := readChunk_from hs.from_rest hpart
      have hreach : s.reading.token.kind.reach = 1 := by
        rcases hkind with hkind | hkind <;> rw [hkind] <;> rfl
      have hhorizon : s.horizon = s.reading.token.span.stop + 1 := by
        rw [State.horizon_eq_margin, State.margin, hreach]
        rcases hkind with hkind | hkind <;> rw [hkind] <;> rfl
      have hmoves : Moves text Γ s [] (s.jump part.offset part.rest) :=
        .jump hs hfrom (Nat.le_trans hs.here_le (Nat.le_of_lt hlt)) (by omega)
      refine ⟨hmoves, fun c' s' hc' hs' hcalm hcovers => ?_⟩
      obtain ⟨hmoved, hrest⟩ := hs'.stop hs (hcalm.clear hs) fun hzero => by
        rw [hreach] at hzero
        cases hzero
      have hend := hs.next.2.le
      obtain ⟨stop', hread, hstop⟩ := Filling.readChunk_fill hs.from_rest hmoved hpart
        fun x hlo hhi => hcalm.quiet hcovers hmoves.reaches.on (Nat.lt_of_le_of_lt hend hlo) hhi
      refine ⟨_, s'.jump stop' (f.fill part.rest), ?_, rfl, hs'.jump hfrom hstop⟩
      change chunk tagged s'.reading.token.span.stop s'.reading.rest c' s' = _
      rw [hrest, chunk, hread]
      dsimp only
      rw [if_pos hok]
      rfl
    · cases hrun
  | none =>
    rw [chunk, hpart] at hrun
    cases hrun

/-- The token at which a regular expression starts is its slash, maybe with an equals sign. -/
theorem slash_here (hs : s.On text)
    (hkind : s.reading.token.kind = .mark "/" ∨ s.reading.token.kind = .mark "/=") :
    ∃ behind, s.reading.here = '/' :: behind ∧ s.horizon ≤ s.reading.hereOffset + 3 := by
  have hlength : byteLength "/".toList = 1 ∧ byteLength "/=".toList = 2 := by decide
  have hreach := State.reach_le_one s.reading.token.kind
  rcases hkind with hkind | hkind
  all_goals
    refine ⟨_, hs.here_of_mark hkind, ?_⟩
    rw [State.horizon_eq_margin (by rw [hkind]; rfl), State.margin, hs.stop_of_mark hkind]
    omega

/-- A regular expression is read again. -/
theorem regexp_retraces :
    Retraces f (fun s => s.reading.token.kind = .mark "/" ∨ s.reading.token.kind = .mark "/=") Γ
      regexp regexp := by
  refine .position fun start start' => ?_
  intro c s t n hc hs hkind hΓ hrun
  obtain ⟨s₀, s₁, hstate, hrun⟩ := bind_done hrun
  cases hstate
  have hsize : '/'.utf8Size = 1 := by decide
  obtain ⟨behind, hslash, hhorizon⟩ := slash_here hs hkind
  have hhere := hs.from_here
  rw [hslash] at hhere
  rw [hslash, List.drop_one, List.tail_cons] at hrun
  cases hread : readRegexp false false (s.reading.hereOffset + 1) behind with
  | none =>
    rw [hread] at hrun
    cases hrun
  | some found =>
    obtain ⟨stop, rest⟩ := found
    obtain ⟨flags, hflags⟩ : ∃ flags, rest.takeWhile isNamePart = flags := ⟨_, rfl⟩
    simp only [hread, List.span_eq_takeWhile_dropWhile, hflags] at hrun
    obtain ⟨_, s₂, hjump, hrun⟩ := bind_done hrun
    cases hjump
    cases hrun
    obtain ⟨hfrom, hlt⟩ := readRegexp_from hhere.tail (hsize ▸ hread)
    have hsplit : rest = flags ++ rest.dropWhile isNamePart := by
      rw [← hflags, List.takeWhile_append_dropWhile]
    have hbehind : From text (stop + byteLength flags) (rest.dropWhile isNamePart) :=
      From.append (hsplit ▸ hfrom)
    have hmoves : Moves text Γ s []
        (s.jump (stop + byteLength flags) (rest.dropWhile isNamePart)) :=
      .jump hs hbehind (by omega) (by omega)
    have hnone (span : Span) : sites text (nodes (Node.mk .regexp span [])) = [] := by
      rw [nodes_node, sites_mk (by simp), sites_nil]
    refine ⟨⟨hmoves.reaches, hmoves.horizon, by simp [hnone]⟩,
      fun c' s' hc' hs' hcalm hcovers => ?_⟩
    have hquiet : ∀ x, s.lastEnd < x → x ≤ stop + byteLength flags → f.put x = [] := fun x =>
      hcalm.quiet (fun x hlo hhi hput => by simpa [hnone] using hcovers x hlo hhi hput)
        hmoves.reaches.on
    have hle := hs.lastEnd_le.trans hs.start_le
    -- both readers pass the slash, the text behind it and the flags
    have hreading := hs'.reading (hcalm.clear hs)
    have hmoved := hreading.hereOffset.tail hhere (f.plain hhere rfl)
    have hhere' : s'.reading.here = '/' :: f.fill behind := by
      rw [hreading.here, hslash, Filling.fill_cons (Filling.suffix_of_from hhere) rfl]
    obtain ⟨stop', hread', hstop⟩ := Filling.readRegexp_fill hhere.tail hmoved (hsize ▸ hread)
      fun x hlo hhi => hquiet x (by omega) (by omega)
    have hbehind' := hstop.append (hsplit ▸ hfrom) fun x hlo hhi => hquiet x (by omega) hhi
    refine ⟨.mk .regexp ⟨start', stop' + byteLength flags⟩ [],
      s'.jump (stop' + byteLength flags) (f.fill (rest.dropWhile isNamePart)), ?_,
      .mk (by simp) _ _ .nil, hs'.jump hbehind hbehind'⟩
    have hsuffix := Filling.suffix_of_from hfrom
    refine bind_eq_done (a := s') rfl ?_
    rw [hhere', List.drop_one, List.tail_cons]
    rw [hsize] at hread'
    simp only [hread', List.span_eq_takeWhile_dropWhile,
      Filling.takeWhile_fill hsuffix isStop_of_isNamePart,
      Filling.dropWhile_fill hsuffix isStop_of_isNamePart, hflags]
    rfl

theorem expression_rereads (hg : g.Rereads f g') : Rereads f (expression g) (expression g') := by
  refine .position fun start start' => .step hg.assignment fun first first' hfirst => ?_
  refine .readIf (.isMark _) ?_ (.pure hfirst (.refl _))
  refine .step (manyUntil_rereads (.notMark _) ?_ hg.limit) fun others others' hothers => ?_
  · exact .step advance_rereads fun _ _ _ => (singleton_rereads hg.assignment).frame
  · exact .node nofun (.cons hfirst hothers) (by grind)

theorem substitutions_rereads (hg : g.Rereads f g') (tagged : Bool) {limit limit' : Nat}
    (hle : limit ≤ limit') :
    Rereads f (substitutions g tagged limit) (substitutions g' tagged limit') := by
  induction limit generalizing limit' with
  | zero => exact .exhausted
  | succ limit ih =>
    obtain ⟨limit', rfl⟩ : ∃ n, limit' = n + 1 := ⟨limit' - 1, by omega⟩
    refine .step (allowingIn_rereads (expression_rereads hg)) fun value value' hvalue => ?_
    refine .ifMark ?_ .refuse
    refine .bind (p := state >>= fun s => chunk tagged s.reading.token.span.stop s.reading.rest)
      (.conseq (chunk_retraces tagged) (fun _ _ => .inr) (.refl _)) fun b b' hb => ?_
    obtain rfl : b' = b := hb
    refine .ite (.pure (.singleton hvalue) (by grind)) ?_
    refine .step (ih (Nat.le_of_succ_le_succ hle)) fun others others' hothers => ?_
    exact .pure (.cons hvalue hothers) (by grind)

theorem template_retraces (hg : g.Rereads f g') (tagged : Bool) :
    Retraces f (·.reading.token.kind = .mark "`") Γ (template g tagged) (template g' tagged) := by
  refine .position fun start start' => ?_
  refine .bind (p := state >>= fun s => chunk tagged s.reading.token.span.stop s.reading.rest)
    (.conseq (chunk_retraces tagged) (fun _ _ => .inl) (.refl _)) fun b b' hb => ?_
  obtain rfl : b' = b := hb
  refine .ite (.node nofun .nil (.nil _)) ?_
  refine .step (substitutions_rereads hg tagged hg.limit) fun parts parts' hparts => ?_
  exact .node nofun hparts (by grind)

theorem memberName_rereads : Rereads f memberName memberName :=
  .readIf (.isMark _) privateName_rereads.frame anyName_rereads.frame

/-! ## What follows an operand -/

/-- Whatever the parser reads, its result has `P`. -/
def Always {α : Type} (P : α → Prop) (p : Parser α) : Prop :=
  ∀ (c : Context) (s t : State) (a : α), p c s = .done a t → P a

section

variable {α β : Type} {P : β → Prop}

theorem Always.any {p : Parser α} {k : α → Parser β} (hk : ∀ a, Always P (k a)) :
    Always P (p >>= k) := by
  intro c s t b h
  obtain ⟨a, s', -, h⟩ := bind_done h
  exact hk a c s' t b h

theorem Always.ite {condition : Prop} [Decidable condition] {yes no : Parser β}
    (hyes : Always P yes) (hno : Always P no) : Always P (if condition then yes else no) := by
  split
  · exact hyes
  · exact hno

theorem Always.refuse : Always P (Parser.refuse : Parser β) :=
  fun _ _ _ _ h => by cases h

end

/-- What an operand becomes with what follows it is no name. -/
theorem subscript_always (g : Grammar) (calls brackets : Bool) (operand : Node) :
    Always (fun r => ∀ n ∈ r, n.kind.isLeaf = false) (subscript g calls brackets operand) := by
  have hnode {kind : Kind} {start : Nat} {parts : List Node} (hkind : kind.isLeaf = false) :
      Always (fun r : Option Node => ∀ n ∈ r, n.kind.isLeaf = false)
        (do return some (← node kind start parts)) := by
    intro c s t r h
    cases h
    intro n hn
    cases hn
    exact hkind
  refine .any fun _ => .ite (.ite .refuse (.any fun _ => .any fun _ => ?_)) (.any fun _ => ?_)
  · refine .ite (.any fun _ => .any fun _ => .any fun _ => hnode rfl) (.any fun _ => ?_)
    exact .ite (.any fun _ => hnode rfl) (.any fun _ => hnode rfl)
  · refine .ite (.ite .refuse (.any fun _ => .any fun _ => .any fun _ => hnode ?_))
      (.any fun _ => .ite (.any fun items => hnode ?_) (.any fun _ => .ite (.ite ?_ ?_) ?_))
    · split <;> rfl
    · split <;> rfl
    · exact .any fun _ => .ite (hnode rfl) .refuse
    · exact .any fun _ => hnode (by split <;> rfl)
    · refine .ite .refuse (.any fun _ => .ite (.any fun _ => hnode rfl) ?_)
      intro c s t r h
      cases h
      simp

/-- What follows an operand is read again. -/
theorem subscript_retraces (hg : g.Rereads f g') {calls brackets : Bool} {operand operand' : Node}
    (h : f.Alike operand operand') (hheld : Within [operand] Γ) :
    Retraces f (ends text · operand) Γ (subscript g calls brackets operand)
      (subscript g' calls brackets operand') := by
  have hgive {n n' : Node} {Γ : List Node} {F : State → Prop} (hn : f.Alike n n') :
      Retraces f F (n :: Γ) (Pure.pure (some n) : Parser (Option Node)) (Pure.pure (some n')) :=
    .pure (.some hn) (by grind)
  have hoptional : isOptional operand' = isOptional operand := by
    rw [isOptional, h.kind, isOptional]
  have hincomplete : isIncomplete operand' = isIncomplete operand := by
    rw [isIncomplete, h.kind, isIncomplete]
  unfold subscript
  dsimp only
  rw [hoptional, hincomplete, h.kind]
  refine .readIf (.isMark _) (.ite .refuse ?_) ?_
  · refine .step advance_rereads fun _ _ _ => .read (.isMark _) fun b => ?_
    refine .ite ?_ (.readIf (.isMark _) ?_ ?_)
    · refine .step advance_rereads fun _ _ _ => ?_
      refine .step (allowingIn_rereads (expression_rereads hg)) fun inner inner' hinner => ?_
      refine .step (expect_rereads _) fun _ _ _ => ?_
      exact .bindNode nofun (.cons h (.singleton hinner)) (by grind) fun n n' hn => hgive hn
    · refine .step (arguments_rereads hg) fun items items' hitems => ?_
      exact .bindNode nofun (.cons h hitems) (by grind) fun n n' hn => hgive hn
    · refine .step memberName_rereads fun name name' hname => ?_
      exact .bindNode nofun (.cons h (.singleton hname)) (by grind) fun n n' hn => hgive hn
  · refine .read (.isMark _) fun b => ?_
    refine .ite (.ite .refuse ?_) (.read (.isMark _) fun b' => .ite ?_ ?_)
    · refine .step advance_rereads fun _ _ _ => ?_
      refine .step (allowingIn_rereads (expression_rereads hg)) fun inner inner' hinner => ?_
      refine .step (expect_rereads _) fun _ _ _ => ?_
      exact .bindNode (by split <;> nofun) (.cons h (.singleton hinner)) (by grind)
        fun n n' hn => hgive hn
    · change Retraces f _ Γ (arguments g >>= fun items =>
          node (callKind operand items).1 operand.span.start (callKind operand items).2
            >>= fun n => pure (some n))
        (arguments g' >>= fun items =>
          node (callKind operand' items).1 operand'.span.start (callKind operand' items).2
            >>= fun n => pure (some n))
      rw [← bind_assoc, ← bind_assoc]
      exact .bind (called_retraces hg h hheld) fun n n' hn => hgive hn
    · refine .eatIf (eat_rereads _) (.ite ?_ ?_) (.ite .refuse (.ifMark ?_ ?_))
      · refine .eatIf (eatWord_rereads _) ?_ .refuse
        exact .bindNode nofun .nil (.nil _) fun n n' hn => hgive hn
      · refine .step memberName_rereads fun name name' hname => ?_
        exact .bindNode (by split <;> nofun) (.cons h (.singleton hname)) (by grind)
          fun n n' hn => hgive hn
      · refine .bind (template_retraces hg _) fun part part' hpart => ?_
        exact .bindNode nofun (.cons h (.singleton hpart)) (by grind) fun n n' hn => hgive hn
      · exact .pure .none (.nil _)

theorem subscripts_retraces (hg : g.Rereads f g') {calls brackets : Bool} {limit limit' : Nat}
    (hle : limit ≤ limit') {operand operand' : Node} (h : f.Alike operand operand')
    (hheld : Within [operand] Γ) :
    Retraces f (ends text · operand) Γ (subscripts g calls brackets limit operand)
      (subscripts g' calls brackets limit' operand') := by
  induction limit generalizing operand operand' limit' Γ with
  | zero => exact .exhausted
  | succ limit ih =>
    obtain ⟨limit', rfl⟩ : ∃ n, limit' = n + 1 := ⟨limit' - 1, by omega⟩
    refine .bindPost (R := fun r s => ∀ n ∈ r, ends text s n) (subscript_retraces hg h hheld)
      (fun c s t r _ _ _ hrun n hn hleaf => ?_) fun r r' hr => ?_
    · have hkind := subscript_always g calls brackets operand c s t r hrun n hn
      exact absurd hleaf (by rw [hkind]; decide)
    · cases hr with
      | none => exact .pure h (by grind)
      | some hlonger =>
        exact .conseq (ih (Nat.le_of_succ_le_succ hle) hlonger (by grind))
          (fun s _ hends => hends _ rfl) (.refl _)

theorem decorators_rereads (hg : g.Rereads f g') : Rereads f (decorators g) (decorators g') := by
  refine manyUntil_rereads (.notMark _) ?_ hg.limit
  refine .position fun start start' => .step advance_rereads fun _ _ _ => ?_
  refine .eatIf (eat_rereads _) ?_ ?_
  · refine .step (expression_rereads hg) fun inner inner' hinner => ?_
    refine .step (expect_rereads _) fun _ _ _ => ?_
    refine .bindNode nofun (.singleton hinner) (by grind) fun n n' hn => ?_
    exact .pure (.singleton hn) (by grind)
  · refine .bindEnds (identifier_rereads _ _) (identifier_lays _ _) fun name name' hname => ?_
    refine .bind (subscripts_retraces hg hg.limit hname (by grind)) fun inner inner' hinner => ?_
    refine .bindNode nofun (.singleton hinner) (by grind) fun n n' hn => ?_
    exact .pure (.singleton hn) (by grind)

end Parser

end AmdModules.Script
