import AmdModules.Proofs.Reread.Mirror
import AmdModules.Proofs.Reread.Reading

/-!
# States of two parsers

One parser reads a text and another one the filled text. `State.Twin` relates their states: both
stand behind the same token, with nothing left to read of what was put in there. As long as nothing
is put in up to the `horizon` of a state (`State.Calm`), which is how far ahead a parser looks from
there, both see the same tokens.

What is put in belongs to the calls of a tree: `sites` are the places of the calls in some trees. A
run that comes from one state to another finds the sites of its result on its way (`Moves`).
-/

set_option autoImplicit false

namespace AmdModules.Script

open Text
open Loader (Call)

/-! ## Sites -/

/-- The places at which something may be put into a call, each with the call. -/
def sitesOf (text : List Char) (call : Call) : List (Nat × Call) :=
  (callPlaces text call).map fun place => (place, call)

/-- The places at which something may be put into a node, if it is a call of `define`. -/
def callSites (text : List Char) (n : Node) : List (Nat × Call) :=
  match Call.definition? n with
  | some call => sitesOf text call
  | none => []

/-- The places at which something may be put into the calls in some trees. -/
def sites (text : List Char) (ns : List Node) : List (Nat × Call) :=
  (landmarks ns).flatMap (callSites text)

section

variable {text : List Char} {ns ms : List Node} {x : Nat × Call}

@[simp] theorem sites_nil : sites text [] = [] := rfl

theorem sites_append (ns ms : List Node) :
    sites text (ns ++ ms) = sites text ns ++ sites text ms := by
  simp [sites, landmarks_append]

theorem mem_sites_append : x ∈ sites text (ns ++ ms) ↔ x ∈ sites text ns ∨ x ∈ sites text ms := by
  rw [sites_append, List.mem_append]

theorem mem_sites_cons {n : Node} :
    x ∈ sites text (n :: ns) ↔ x ∈ sites text [n] ∨ x ∈ sites text ns := by
  rw [← List.singleton_append, mem_sites_append]

theorem Within.sites (h : Within ns ms) : sites text ns ⊆ sites text ms := by
  intro x hx
  obtain ⟨n, hn, hx⟩ := List.mem_flatMap.mp hx
  exact List.mem_flatMap.mpr ⟨n, h.subperm.subset hn, hx⟩

/-- Only a call has sites of its own. -/
theorem sites_mk {kind : Kind} (hkind : kind ≠ .call) (span : Span) (parts : List Node) :
    sites text [.mk kind span parts] = sites text parts := by
  rw [sites, landmarks_mk, landmarks_nil, List.append_nil, List.flatMap_append]
  split
  · simp [callSites, Filling.definition?_eq_none hkind, sites]
  · rfl

theorem sites_call (callee : Node) (span : Span) (items : List Node) :
    sites text [.mk .call span (callee :: items)]
      = (if callee.kind = .identifier "define" then
          sitesOf text ⟨.define, callee.span, items, span⟩ else [])
        ++ sites text (callee :: items) := by
  rw [sites, landmarks_mk, landmarks_nil, List.append_nil, List.flatMap_append]
  simp only [Kind.isLandmark, ↓reduceIte, List.flatMap_cons, List.flatMap_nil, List.append_nil,
    callSites, Parser.definition?_call, sites]
  by_cases hdefine : callee.kind = .identifier "define" <;> simp [hdefine]

end

/-! ## How far ahead a parser looks -/

namespace State

/-- The first byte that does not matter for the token being looked at. -/
def margin (s : State) : Nat :=
  s.reading.token.span.stop + s.reading.token.kind.reach

end State

/-- Whether the parser may look at the token behind this one. -/
def TokenKind.looksAhead : TokenKind → Bool
  | .word _ => true
  | .mark ";" => true
  | _ => false

/-- No parenthesis and no comma is such a token. -/
theorem TokenKind.reach_of_looksAhead {kind : TokenKind} (h : kind.looksAhead = true) :
    kind.reach = 1 := by
  refine reach_eq_one (fun heq => ?_) fun heq => ?_
  · rw [heq] at h
    exact absurd h (by decide)
  · rw [heq] at h
    exact absurd h (by decide)

namespace State

/-- The first byte that does not matter for the tokens that are looked at together. -/
def ahead (s : State) : Nat :=
  if s.reading.token.kind.looksAhead then s.next.margin else s.margin

/-- The first byte that does not matter from a state on. Behind `await` the parser may look at two
more tokens. -/
def horizon (s : State) : Nat :=
  if s.reading.token.kind = .word "await" then s.next.ahead else s.ahead

variable {text : List Char} {s : State}

theorem On.here_lt_margin (h : s.On text) : s.reading.hereOffset < s.margin := by
  obtain ⟨lineEnded, cs, earlier, -, hreading, -⟩ := h
  obtain ⟨⟨kind, bytes, rest⟩, hread⟩ :
      ∃ r, readKind (skipBlank .space 0 s.lastEnd lineEnded none earlier cs).rest = r := ⟨_, rfl⟩
  rw [margin, hreading, Filling.readToken_eq rfl hread]
  have := Filling.lt_add_reach hread
  dsimp only
  omega

theorem On.lastEnd_lt_margin (h : s.On text) : s.lastEnd < s.margin :=
  Nat.lt_of_le_of_lt (Nat.le_trans h.lastEnd_le h.start_le) h.here_lt_margin

theorem reach_le_one (kind : TokenKind) : kind.reach ≤ 1 := by
  unfold TokenKind.reach
  split <;> omega

theorem On.margin_le_next (h : s.On text) : s.margin ≤ s.next.margin := by
  have hlt : s.reading.token.span.stop < s.next.margin := h.next.1.on.lastEnd_lt_margin
  have hreach := reach_le_one s.reading.token.kind
  rw [margin]
  omega

theorem On.margin_le_ahead (h : s.On text) : s.margin ≤ s.ahead := by
  unfold ahead
  split
  · exact h.margin_le_next
  · exact Nat.le_refl _

theorem On.ahead_le_next (h : s.On text) : s.ahead ≤ s.next.ahead := by
  have hnext := h.next.1.on.margin_le_ahead
  unfold ahead
  split
  · exact hnext
  · exact Nat.le_trans h.margin_le_next hnext

theorem On.ahead_le_horizon (h : s.On text) : s.ahead ≤ s.horizon := by
  unfold horizon
  split
  · exact h.ahead_le_next
  · exact Nat.le_refl _

theorem On.margin_le_horizon (h : s.On text) : s.margin ≤ s.horizon :=
  Nat.le_trans h.margin_le_ahead h.ahead_le_horizon

theorem On.lastEnd_lt_horizon (h : s.On text) : s.lastEnd < s.horizon :=
  Nat.lt_of_lt_of_le h.lastEnd_lt_margin h.margin_le_horizon

theorem On.horizon_le_next (h : s.On text) : s.horizon ≤ s.next.horizon := by
  have hnext := h.next.1.on.ahead_le_horizon
  unfold horizon
  split
  · exact hnext
  · exact Nat.le_trans h.ahead_le_next hnext

/-- From a token behind which the parser does not look. -/
theorem horizon_eq_margin (h : s.reading.token.kind.looksAhead = false) :
    s.horizon = s.margin := by
  have hawait : s.reading.token.kind ≠ .word "await" := by
    intro heq
    rw [heq] at h
    exact absurd h (by decide)
  simp only [horizon, hawait, ahead, h, Bool.false_eq_true, ↓reduceIte]

end State

/-! ## Runs and the sites on their way -/

/-- The parser came from `s` to `t` with the trees `ns`. Their sites are among those of the trees
`Γ` or lie on the way. -/
structure Moves (text : List Char) (Γ : List Node) (s : State) (ns : List Node) (t : State) :
    Prop where
  reaches : Reaches text s t
  horizon : s.horizon ≤ t.horizon
  found : ∀ x ∈ sites text ns, x ∈ sites text Γ ∨ s.horizon ≤ x.1 ∧ x.1 ≤ t.lastEnd

/-- The sites of the trees that are held have been passed. -/
def State.Holds (text : List Char) (s : State) (Γ : List Node) : Prop :=
  ∀ x ∈ sites text Γ, x.1 ≤ s.lastEnd

theorem State.Holds.nil {text : List Char} (s : State) : s.Holds text [] := by
  simp [State.Holds]

namespace Moves

variable {text : List Char} {Γ : List Node} {s t u : State} {ns ms : List Node}

/-- Putting trees together moves nowhere. -/
theorem stay (hs : s.On text) (h : sites text ns ⊆ sites text Γ) : Moves text Γ s ns s :=
  ⟨.refl hs, Nat.le_refl _, fun _ hx => .inl (h hx)⟩

theorem holds (h : Moves text Γ s ns t) (hΓ : s.Holds text Γ) : t.Holds text (ns ++ Γ) := by
  intro x hx
  rcases mem_sites_append.mp hx with hx | hx
  · rcases h.found x hx with hx | ⟨-, hle⟩
    · exact Nat.le_trans (hΓ x hx) h.reaches.le
    · exact hle
  · exact Nat.le_trans (hΓ x hx) h.reaches.le

/-- Where nothing is held all sites lie between the two states. -/
theorem between (h : Moves text [] s ns t) {x : Nat × Call} (hx : x ∈ sites text ns) :
    s.horizon ≤ x.1 ∧ x.1 ≤ t.lastEnd :=
  (h.found x hx).resolve_left (by simp)

theorem trans (h : Moves text Γ s ns t) (h' : Moves text (ns ++ Γ) t ms u) :
    Moves text Γ s ms u := by
  refine ⟨h.reaches.trans h'.reaches, Nat.le_trans h.horizon h'.horizon, fun x hx => ?_⟩
  rcases h'.found x hx with hx | ⟨hlo, hhi⟩
  · rcases mem_sites_append.mp hx with hx | hx
    · rcases h.found x hx with hx | ⟨hlo, hhi⟩
      · exact .inl hx
      · exact .inr ⟨hlo, Nat.le_trans hhi h'.reaches.le⟩
    · exact .inl hx
  · exact .inr ⟨Nat.le_trans h.horizon hlo, hhi⟩

theorem mono {Γ' : List Node} (h : Moves text Γ s ns t)
    (hsub : sites text Γ ⊆ sites text Γ') : Moves text Γ' s ns t :=
  ⟨h.reaches, h.horizon, fun x hx => (h.found x hx).imp_left fun hx => hsub hx⟩

theorem next (hs : s.On text) : Moves text Γ s [] s.next :=
  ⟨hs.next.2, hs.horizon_le_next, by simp⟩

end Moves

/-! ## States in the filled text -/

variable {text : List Char} (f : Filling text)

/-- Nothing is put in up to the horizon. -/
def State.Calm (s : State) : Prop :=
  ∀ x, s.lastEnd < x → x < s.horizon → f.put x = []

/-- Nothing is put in up to the end of the token being looked at. -/
def State.Clear (s : State) : Prop :=
  ∀ x, s.lastEnd < x → x < s.margin → f.put x = []

/-- What is put in on the way from `s` to `t` belongs to the trees `ns`. -/
def Covers (s t : State) (ns : List Node) : Prop :=
  ∀ x, s.horizon ≤ x → x < t.horizon → f.put x ≠ [] →
    ∃ call, f.owns x call ∧ (x, call) ∈ sites text ns

theorem Filling.exists_moved {o : Nat} {cs : List Char} (h : From text o cs) :
    ∃ o', f.Moved o o' := by
  obtain ⟨passed, htext, -⟩ := id h
  have hle := f.byteLength_le_fill passed cs
  rw [← htext] at hle
  exact ⟨byteLength (f.fill text) - byteLength (f.fill cs), cs, h, by omega⟩

/-- The second parser stands in the filled text where the first one stands in the text. -/
structure State.Twin (s s' : State) : Prop where
  reads : ∃ lineEnded cs earlier earlier', From text s.lastEnd cs
    ∧ s.reading = readToken lineEnded earlier s.lastEnd cs
    ∧ s'.reading = readToken lineEnded earlier' s'.lastEnd (f.fill cs)
  lastEnd : f.Moved s.lastEnd s'.lastEnd
  inModule : s'.inModule = s.inModule

variable {f} {Γ : List Node} {s s' t : State} {ns ms : List Node}

namespace Moves

/-- **Both parsers go on to see the same tokens** if what is put in belongs to the result. -/
theorem calm (h : Moves text Γ s ns t) (hΓ : s.Holds text Γ) (hcalm : s.Calm f)
    (hcovers : Covers f s t ns) : t.Calm f := by
  intro x hlo hhi
  by_contra hput
  have hle := h.reaches.le
  rcases Nat.lt_or_ge x s.horizon with hx | hx
  · exact hput (hcalm x (by omega) hx)
  · obtain ⟨call, -, hsite⟩ := hcovers x hx hhi hput
    rcases h.found _ hsite with hx | ⟨-, hx⟩
    · have := hΓ _ hx
      simp only at this
      omega
    · simp only at hx
      omega

/-- What is put in on the first part of the way belongs to what was read there. -/
theorem covers_left {u : State} (hs : s.On text) (hΓ : s.Holds text Γ)
    (h' : Moves text (ns ++ Γ) t ms u) (hcovers : Covers f s u ms) : Covers f s t ns := by
  intro x hlo hhi hput
  have hlt := hs.lastEnd_lt_horizon
  obtain ⟨call, howns, hsite⟩ := hcovers x hlo (Nat.lt_of_lt_of_le hhi h'.horizon) hput
  rcases h'.found _ hsite with hx | ⟨hx, -⟩
  · rcases mem_sites_append.mp hx with hx | hx
    · exact ⟨call, howns, hx⟩
    · have := hΓ _ hx
      simp only at this
      omega
  · simp only at hx
    omega

theorem covers_right {u : State} (h : Moves text Γ s ns t) (hcovers : Covers f s u ms) :
    Covers f t u ms :=
  fun x hlo hhi hput => hcovers x (Nat.le_trans h.horizon hlo) hhi hput

end Moves

theorem State.Calm.clear (h : s.Calm f) (hs : s.On text) : s.Clear f :=
  fun x hlo hhi => h x hlo (Nat.lt_of_lt_of_le hhi hs.margin_le_horizon)

/-- The token behind the one being looked at is seen as well. -/
theorem State.Calm.clear_next (h : s.Calm f) (hs : s.On text)
    (hlook : s.reading.token.kind.looksAhead = true) : s.next.Clear f := by
  have hahead : s.ahead = s.next.margin := by rw [State.ahead, if_pos hlook]
  have hle : s.lastEnd ≤ s.next.lastEnd := hs.next.2.le
  intro x hlo hhi
  refine h x (by omega) (Nat.lt_of_lt_of_le hhi ?_)
  rw [← hahead]
  exact hs.ahead_le_horizon

namespace State.Twin

/-- Both parsers see the same token. -/
theorem reading (h : s.Twin f s') (hclear : s.Clear f) :
    Reading.Twin f s.reading s'.reading := by
  obtain ⟨lineEnded, cs, earlier, earlier', hcs, hreading, hreading'⟩ := h.reads
  have hmargin : s.margin = (readToken lineEnded earlier s.lastEnd cs).token.span.stop
      + (readToken lineEnded earlier s.lastEnd cs).token.kind.reach := by
    rw [margin, hreading]
  rw [hreading, hreading']
  exact Filling.readToken_twin _ _ earlier' hcs h.lastEnd
    fun x hlo hhi => hclear x hlo (hmargin ▸ hhi)

theorem jump (h : s.Twin f s') {offset offset' : Nat} {cs : List Char} (hcs : From text offset cs)
    (hmoved : f.Moved offset offset') :
    (s.jump offset cs).Twin f (s'.jump offset' (f.fill cs)) :=
  ⟨⟨false, cs, _, _, hcs, rfl, rfl⟩, hmoved, h.inModule⟩

/-- Behind a parenthesis or a comma the filled text goes on with what is put in. -/
theorem stop_full (h : s.Twin f s') (hs : s.On text) (hclear : s.Clear f)
    (hreach : s.reading.token.kind.reach = 0) :
    s'.reading.rest = f.full s.reading.rest
      ∧ s'.reading.token.span.stop + byteLength (f.full s.reading.rest)
        = byteLength (f.fill text) := by
  have hreading := h.reading hclear
  refine ⟨by rw [hreading.rest, Filling.behind, if_pos hreach], ?_⟩
  -- such a token is a single character
  obtain ⟨c, hhere, hsize⟩ : ∃ c, s.reading.here = c :: s.reading.rest
      ∧ s.reading.token.span.stop = s.reading.hereOffset + c.utf8Size := by
    have hkind : s.reading.token.kind = .mark "(" ∨ s.reading.token.kind = .mark "," := by
      by_contra hnot
      obtain ⟨hopen, hcomma⟩ := not_or.mp hnot
      rw [TokenKind.reach_eq_one hopen hcomma] at hreach
      exact absurd hreach (by decide)
    obtain ⟨lineEnded, cs, earlier, -, hread, -⟩ := hs
    rw [hread] at hkind ⊢
    rcases hkind with hkind | hkind
    · exact ⟨'(', readToken_mark hkind⟩
    · exact ⟨',', readToken_mark hkind⟩
  have hlength := hreading.length
  have hfill := hreading.hereOffset.of_from hs.from_here
  rw [hhere, Filling.fill_eq_cons, byteLength_cons] at hfill
  omega

/-- Where the token ends in the filled text, if nothing is put in behind it. -/
theorem stop (h : s.Twin f s') (hs : s.On text) (hclear : s.Clear f)
    (hput : s.reading.token.kind.reach = 0 → f.put s.reading.token.span.stop = []) :
    f.Moved s.reading.token.span.stop s'.reading.token.span.stop
      ∧ s'.reading.rest = f.fill s.reading.rest := by
  have hreading := h.reading hclear
  by_cases hreach : s.reading.token.kind.reach = 0
  · obtain ⟨hrest, hlength⟩ := h.stop_full hs hclear hreach
    rw [Filling.full_eq_fill (by rw [Filling.gap_eq hs.from_rest]; exact hput hreach)]
      at hrest hlength
    exact ⟨⟨_, hs.from_rest, hlength⟩, hrest⟩
  · have hone : s.reading.token.kind.reach = 1 := by
      have := reach_le_one s.reading.token.kind
      omega
    exact ⟨hreading.token.stop hone, by rw [hreading.rest, Filling.behind_eq_fill hone]⟩

theorem next (h : s.Twin f s') (hs : s.On text) (hclear : s.Clear f)
    (hput : s.reading.token.kind.reach = 0 → f.put s.reading.token.span.stop = []) :
    s.next.Twin f s'.next := by
  obtain ⟨hstop, hrest⟩ := h.stop hs hclear hput
  rw [State.next, State.next, hrest]
  exact h.jump hs.from_rest hstop

end State.Twin

/-- A token starts at a place of the text, also when a comment that hides in it starts first. -/
theorem State.On.from_start (h : s.On text) :
    ∃ cs, From text s.reading.token.span.start cs := by
  -- that place is found again in the text with nothing put in
  let blank : Filling text :=
    ⟨fun _ => [], fun _ _ => False, fun _ => [], fun _ => rfl, fun _ => rfl, fun _ _ => rfl⟩
  obtain ⟨lineEnded, cs, earlier, hcs, hreading, -⟩ := h
  obtain ⟨o', hmoved⟩ := blank.exists_moved hcs
  have htwin := Filling.readToken_twin lineEnded earlier [] hcs hmoved
    fun _ _ _ => rfl
  obtain ⟨cs', hcs', -⟩ := htwin.token.start
  rw [hreading]
  exact ⟨cs', hcs'⟩

/-- On the way over a token nothing may be put in. -/
theorem Covers.quiet (h : Covers f s s.next []) (hs : s.On text)
    (hreach : s.reading.token.kind.reach = 0) : f.put s.reading.token.span.stop = [] := by
  by_contra hput
  have hlook : s.reading.token.kind.looksAhead = false := by
    rw [Bool.eq_false_iff]
    intro htrue
    rw [TokenKind.reach_of_looksAhead htrue] at hreach
    exact absurd hreach (by decide)
  have hmargin : s.horizon = s.reading.token.span.stop := by
    rw [State.horizon_eq_margin hlook, State.margin, hreach, Nat.add_zero]
  have hnext : s.reading.token.span.stop < s.next.horizon := hs.next.1.on.lastEnd_lt_horizon
  obtain ⟨call, -, hsite⟩ := h _ (Nat.le_of_eq hmargin) hnext hput
  exact absurd hsite (by simp)

end AmdModules.Script
