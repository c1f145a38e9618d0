import AmdModules.Proofs.Reread.Pattern

/-!
# Arguments of a filled text

Between the parentheses of a call of `define` something may be put in: in front of all arguments,
behind the comma that ends the id, or behind an id that stands alone. The arguments are read again
with what was put in among them (`arguments_retrace`); where nothing is put in they are alike
(`arguments_rereads`), and a call is alike in any case (`called_retraces`).
-/

set_option autoImplicit false

namespace AmdModules.Script

open Text Yields Mirrors
open Loader (Call)
open Filling (AlikeAll)

variable {text : List Char}

/-! ## An id that stands alone -/

/-- The token behind a place depends on the place alone. -/
theorem State.Reads.token_eq {s t : State} (h : s.Reads text false) (h' : t.Reads text false)
    (heq : s.lastEnd = t.lastEnd) : s.reading.token = t.reading.token := by
  obtain ⟨cs, earlier, hcs, hreading, -⟩ := h
  obtain ⟨ds, earlier', hds, hreading', -⟩ := h'
  rw [heq] at hcs hreading
  obtain rfl := Filling.eq_of_from hcs hds
  rw [hreading, hreading', readToken_append false earlier, readToken_append false earlier']

/-- The literal that a complete id is. -/
theorem Complete.reads {call : Call} {id : Node} {s : State} (h : Complete text call id)
    (hs : s.Reads text false) (hplace : behindToken text call.callee.stop = s.lastEnd) :
    ∃ value spelling, s.reading.token.kind = .string value
      ∧ s.reading.here = spelling ++ s.reading.rest
      ∧ s.reading.hereOffset + byteLength spelling = s.reading.token.span.stop
      ∧ s.reading.token.span.stop = id.span.stop
      ∧ ∀ after, readKind (spelling ++ after) = (.string value, byteLength spelling, after) := by
  obtain ⟨cs, hcs, value, spelling, rest, hhere, hstop, hclosed⟩ := h
  obtain ⟨ds, earlier, hds, hreading, -⟩ := hs
  rw [hplace] at hcs hhere hstop
  obtain rfl := Filling.eq_of_from hcs hds
  have hread : readKind (readToken false [] s.lastEnd cs).here
      = (.string value, byteLength spelling, rest) := by
    rw [hhere, hclosed]
  rw [readToken_append] at hreading
  have hblank : skipBlank .space 0 s.lastEnd false none [] cs
      = skipBlank .space 0 s.lastEnd false none [] cs := rfl
  rw [Filling.readToken_eq hblank hread] at hreading
  refine ⟨value, spelling, ?_, ?_, ?_, ?_, hclosed⟩
  · rw [hreading]
  · rw [hreading]
    exact hhere
  · rw [hreading]
  · rw [hreading]
    exact hstop

/-- A literal that is complete in itself is read again, whatever is put in behind it. -/
theorem State.Twin.read_complete {f : Filling text} {s s' : State} {value : String}
    {spelling : List Char} (h : s.Twin f s') (hs : s.On text)
    (hhere : s.reading.here = spelling ++ s.reading.rest)
    (hstop : s.reading.hereOffset + byteLength spelling = s.reading.token.span.stop)
    (hclosed : ∀ after, readKind (spelling ++ after) = (.string value, byteLength spelling, after))
    (hquiet : ∀ x, s.lastEnd < x → x < s.reading.token.span.stop → f.put x = []) :
    s'.reading.token.kind = .string value ∧ s'.reading.rest = f.full s.reading.rest
      ∧ s'.reading.token.span.stop + byteLength (f.full s.reading.rest)
        = byteLength (f.fill text) := by
  have hne : spelling ≠ [] := by
    rintro rfl
    exact absurd (hclosed []) (by simp [readKind])
  have hpos : byteLength spelling ≠ 0 := mt byteLength_eq_zero.mp hne
  have hfrom := hs.from_here
  obtain ⟨lineEnded, cs, earlier, earlier', hcs, hreading, hreading'⟩ := h.reads
  have hblank : Blank.Twin f (skipBlank .space 0 s.lastEnd lineEnded none earlier cs)
      (skipBlank .space 0 s'.lastEnd lineEnded none earlier' (f.fill cs)) := by
    refine Filling.skipBlank_fill hcs h.lastEnd .space .none fun x hlo hhi => hquiet x hlo ?_
    have : (skipBlank .space 0 s.lastEnd lineEnded none earlier cs).offset
        = s.reading.hereOffset := by rw [hreading]; rfl
    omega
  have hrest : (skipBlank .space 0 s.lastEnd lineEnded none earlier cs).rest = s.reading.here := by
    rw [hreading]
    rfl
  have hoffset : (skipBlank .space 0 s.lastEnd lineEnded none earlier cs).offset
      = s.reading.hereOffset := by
    rw [hreading]
    rfl
  have hle := hs.lastEnd_le.trans hs.start_le
  have hfill : f.fill s.reading.here = spelling ++ f.full s.reading.rest := by
    rw [hhere] at hfrom ⊢
    exact Filling.fill_calm hfrom hne fun x hlo hhi => hquiet x (by omega) (by omega)
  have hread : readKind (skipBlank .space 0 s'.lastEnd lineEnded none earlier' (f.fill cs)).rest
      = (.string value, byteLength spelling, f.full s.reading.rest) := by
    rw [hblank.rest, hrest, hfill, hclosed]
  rw [Filling.readToken_eq rfl hread] at hreading'
  have hlength := (hoffset ▸ hblank.offset).of_from hs.from_here
  rw [hfill, byteLength_append] at hlength
  rw [hreading']
  exact ⟨rfl, rfl, by simp only; omega⟩

namespace Parser

variable {f : Filling text} {g g' : Grammar} {F : State → Prop} {Γ : List Node} {s s' t : State}
  {c c' : Context}

theorem element_rereads (hg : g.Rereads f g') : Rereads f (element g) (element g') := by
  refine .position fun start start' => .eatIf (eat_rereads _) ?_ ?_
  · refine .step (allowingIn_rereads hg.assignment) fun inner inner' hinner => ?_
    exact .node nofun (.singleton hinner) (by grind)
  · exact allowingIn_rereads hg.assignment

theorem argument_rereads (hg : g.Rereads f g') : Rereads f (argument g) (argument g') := by
  refine .step (element_rereads hg) fun item item' hitem => ?_
  exact .step (separator_rereads _) fun _ _ _ => .pure (.singleton hitem) (by grind)

theorem manyArguments_rereads (hg : g.Rereads f g') {limit limit' : Nat} (hle : limit ≤ limit') :
    Rereads f (manyUntil (isMarkOrEnd ")") (argument g) limit)
      (manyUntil (isMarkOrEnd ")") (argument g') limit') :=
  manyUntil_rereads (.isMarkOrEnd _) (argument_rereads hg) hle

theorem manyArguments_moves (hg : g.Rereads f g') (hc : c.Plain text) (hs : s.On text) {limit : Nat}
    {items : List Node}
    (h : manyUntil (isMarkOrEnd ")") (argument g) limit c s = .done items t) :
    Moves text [] s items t :=
  (manyArguments_rereads hg (Nat.le_refl _)).moves hc hs h

/-! ## Taking arguments -/

theorem manyUntil_cons {α : Type} {stop : Parser Bool} {item : Parser (List α)} {limit : Nat}
    {first others : List α} (hstop : stop c s = .done false s) (hitem : item c s = .done first s')
    (hothers : manyUntil stop item limit c s' = .done others t) :
    manyUntil stop item (limit + 1) c s = .done (first ++ others) t :=
  bind_eq_done hstop (bind_eq_done hitem (bind_eq_done hothers rfl))

theorem manyUntil_nil {α : Type} {stop : Parser Bool} {item : Parser (List α)} (limit : Nat)
    (hstop : stop c s = .done true s) : manyUntil stop item (limit + 1) c s = .done [] s :=
  bind_eq_done hstop rfl

/-- **What is put in behind a parenthesis or a comma is taken**, and the parser comes to where it
would stand without. -/
theorem takes_put (hf : f.Legible g') (hs : s.On text) (hs' : s.Twin f s') (hclear : s.Clear f)
    (hreach : s.reading.token.kind.reach = 0)
    (hput : f.put s.reading.token.span.stop ≠ [] → ∃ call, f.owns s.reading.token.span.stop call
      ∧ (s.reading.token.span.stop = behindToken text call.callee.stop
        ∨ ∃ id next others, call.arguments = id :: next :: others ∧ Loader.isString id = true
          ∧ s.reading.token.span.stop = behindToken text id.span.stop)) :
    ∃ ns u, g'.Takes c s'.next ns u ∧ ns.length ≤ 2
      ∧ ns.map Node.plain = f.nodes s.reading.token.span.stop ∧ s.next.Twin f u := by
  by_cases hnone : f.put s.reading.token.span.stop = []
  · refine ⟨[], s'.next, fun _ _ _ h => h, by decide, ?_, hs'.next hs hclear fun _ => hnone⟩
    rw [f.nodes_nil hnone, List.map_nil]
  · obtain ⟨call, howns, hplace⟩ := hput hnone
    obtain ⟨hrest, hlength⟩ := hs'.stop_full hs hclear hreach
    rw [Filling.full, Filling.gap_eq hs.from_rest] at hrest hlength
    have hat : s'.next.At (f.put s.reading.token.span.stop ++ f.fill s.reading.rest) :=
      ⟨_, by rw [← hrest]; rfl⟩
    obtain ⟨ns, u, htakes, hsize, hnodes, ⟨earlier, hu⟩, hlast, hmodule⟩ :=
      hf.leads howns hnone hplace c s'.next _ hat
    refine ⟨ns, u, htakes, hsize, hnodes, ⟨false, _, _, earlier, hs.from_rest, rfl, hu⟩, ?_, ?_⟩
    · refine ⟨_, hs.from_rest, ?_⟩
      rw [byteLength_append] at hlength
      rw [hlast]
      change s'.reading.token.span.stop + _ + _ = _
      omega
    · exact hmodule.trans hs'.inModule

theorem eat_eq {m : String} (h : s.reading.token.kind = .mark m) :
    eat m c s = .done true s.next := by
  simp [eat, Bind.bind, andThen, isMark, h]
  rfl

theorem eat_eq_false {m : String} (h : s.reading.token.kind ≠ .mark m) :
    eat m c s = .done false s := by
  simp [eat, Bind.bind, andThen, isMark, h]
  rfl

theorem expect_eq {m : String} (h : s.reading.token.kind = .mark m) :
    expect m c s = .done () s.next :=
  bind_eq_done (eat_eq h) rfl

theorem isMark_eq {m : String} {b : Bool} (h : (s.reading.token.kind == .mark m) = b) :
    isMark m c s = .done b s := by
  rw [isMark, h]

theorem separator_comma {close : String} (hclose : close ≠ ",")
    (h : s.reading.token.kind = .mark ",") : separator close c s = .done () s.next :=
  bind_eq_done (isMark_eq (b := false) (by rw [h]; simpa using Ne.symm hclose)) (expect_eq h)

theorem separator_close {close : String} (h : s.reading.token.kind = .mark close) :
    separator close c s = .done () s :=
  bind_eq_done (isMark_eq (b := true) (by rw [h]; simp)) rfl

/-- One argument and the comma behind it. -/
theorem argument_comma {n : Node} (hitem : element g c s = .done n s')
    (hcomma : s'.reading.token.kind = .mark ",") : argument g c s = .done [n] s'.next :=
  bind_eq_done hitem (bind_eq_done (separator_comma (by decide) hcomma) rfl)

theorem isMarkOrEnd_eq {close : String} (h : s.Seems s') {b : Bool}
    (hstop : isMarkOrEnd close c s = .done b s) : isMarkOrEnd close c' s' = .done b s' := by
  have hb : b = (s.reading.token.kind == .mark close || s.reading.token.kind == .ending) := by
    cases hstop
    rfl
  rw [isMarkOrEnd, h.kind, hb]

/-- A name or a string has no sites. -/
theorem sites_leaf {n : Node} (hleaf : n.kind.isLeaf = true) (hparts : n.parts = []) :
    sites text [n] = [] := by
  rw [sites, landmarks_leaf hleaf hparts]
  rfl

/-! ## An id and the arguments behind it -/

/-- The arguments behind an id that comes first, and where something may be put in behind it. -/
theorem manyArguments_id (hg : g.Rereads f g') (hc : c.Plain text) (hs : s.On text) {limit : Nat}
    {id : Node} {others : List Node} (hid : Loader.isString id = true)
    (h : manyUntil (isMarkOrEnd ")") (argument g) limit c s = .done (id :: others) t) :
    isMarkOrEnd ")" c s = .done false s ∧ sites text [id] = []
      ∧ ∃ s₁, element g c s = .done id s₁ ∧ s₁.Reads text false ∧ id.span.stop = s₁.lastEnd
        ∧ (others = [] ∧ s₁ = t ∧ 1 ≤ limit
          ∨ s₁.reading.token.kind = .mark ","
            ∧ (others ≠ [] → behindToken text id.span.stop = s₁.next.lastEnd)
            ∧ ∃ limit', limit = limit' + 1
              ∧ manyUntil (isMarkOrEnd ")") (argument g) limit' c s₁.next = .done others t) := by
  rcases manyUntil_done (.isMarkOrEnd _) h with ⟨-, hnil, -⟩ | ⟨hstop, first, s₂, rest, limit',
    hfirst, hrest, hsplit, hlimit⟩
  · exact absurd hnil (by simp)
  · obtain ⟨item, s₁, rfl, hitem, hsep⟩ := argument_done hfirst
    obtain ⟨rfl, rfl⟩ : id = item ∧ others = rest := by simpa using hsplit
    obtain ⟨-, hbegins, hends, -⟩ := (element_lays hg.lays).done hc.markup hs hitem
    have hleaf := Kind.isLeaf_of_isString hid
    refine ⟨hstop, sites_leaf hleaf (hbegins.2 hleaf).1, s₁, hitem, (hends hleaf).1,
      (hends hleaf).2, ?_⟩
    rcases hsep with ⟨hparen, rfl⟩ | ⟨hcomma, rfl⟩
    · obtain ⟨rfl, rfl⟩ := manyUntil_at_close hparen hrest
      exact .inl ⟨rfl, rfl, by omega⟩
    · refine .inr ⟨hcomma, fun _ => ?_, limit', hlimit, hrest⟩
      rw [(hends hleaf).2]
      exact ((hends hleaf).1.passed hcomma).behindToken_eq

theorem horizon_of_reach (hreach : s.reading.token.kind.reach = 0) :
    s.horizon = s.reading.token.span.stop := by
  rw [State.horizon_eq_margin, State.margin, hreach, Nat.add_zero]
  rw [Bool.eq_false_iff]
  intro hlook
  rw [TokenKind.reach_of_looksAhead hlook] at hreach
  exact absurd hreach (by decide)

/-- What is put in among an id, its comma and the other arguments: behind the comma, or in a call in
one of the arguments. -/
theorem covers_comma {s₁ : State} {id : Node} {others : List Node}
    (hfirst : Moves text [] s [id] s₁) (hcomma : s₁.reading.token.kind = .mark ",")
    (hlater : Moves text [] s₁.next others t) (hnone : sites text [id] = []) (hcalm : s.Calm f)
    (hcovers : ∀ x, s.horizon ≤ x → x < t.horizon → f.put x ≠ [] →
      (∃ call, f.owns x call ∧ (x, call) ∈ sites text (id :: others))
        ∨ x = s₁.next.lastEnd ∧ ∃ call, f.owns x call ∧ call.arguments = id :: others) :
    Covers f s s₁ [id] ∧ s₁.next.Calm f ∧ Covers f s₁.next t others
      ∧ (f.put s₁.next.lastEnd ≠ [] →
        ∃ call, f.owns s₁.next.lastEnd call ∧ call.arguments = id :: others) := by
  have hhorizon : s₁.horizon = s₁.next.lastEnd := horizon_of_reach (by rw [hcomma]; rfl)
  have hle := hfirst.horizon
  have hlt := hfirst.reaches.on.next.1.on.lastEnd_lt_horizon
  -- up to the arguments behind the comma the only place is the one behind the comma
  have honly {x : Nat} (hlo : s.horizon ≤ x) (hhi : x < s₁.next.horizon) (hput : f.put x ≠ []) :
      x = s₁.next.lastEnd ∧ ∃ call, f.owns x call ∧ call.arguments = id :: others := by
    rcases hcovers x hlo (Nat.lt_of_lt_of_le hhi hlater.horizon) hput with ⟨call, -, hsite⟩ | hown
    · rw [mem_sites_cons, hnone] at hsite
      exact absurd hhi (Nat.not_lt_of_ge (hlater.between (hsite.resolve_left (by simp))).1)
    · exact hown
  refine ⟨fun x hlo hhi hput => ?_, fun x hlo hhi => ?_, fun x hlo hhi hput => ?_,
    fun hput => (honly (by omega) hlt hput).2⟩
  · have := (honly hlo (by omega) hput).1
    omega
  · by_contra hput
    rcases Nat.lt_or_ge x s.horizon with hx | hx
    · have hle' := hfirst.reaches.le.trans hfirst.reaches.on.next.2.le
      exact hput (hcalm x (by omega) hx)
    · have := (honly hx hhi hput).1
      omega
  · rcases hcovers x (by omega) hhi hput with ⟨call, howns, hsite⟩ | ⟨hx, -⟩
    · rw [mem_sites_cons, hnone] at hsite
      exact ⟨call, howns, hsite.resolve_left (by simp)⟩
    · omega

/-- Behind an id and its comma the arguments are read again, with those that are put in. -/
theorem manyArguments_comma (hg : g.Rereads f g') (hc : c.Plain text) (hs : s.On text)
    {limit limit' : Nat} {id : Node} {others : List Node} (hid : Loader.isString id = true)
    (hothers : others ≠ []) (hlimit : limit + 2 ≤ limit')
    (h : manyUntil (isMarkOrEnd ")") (argument g) limit c s = .done (id :: others) t)
    (hc' : c.Twin f c') (hs' : s.Twin f s') (hcalm : s.Calm f)
    (hcovers : ∀ x, s.horizon ≤ x → x < t.horizon → f.put x ≠ [] →
      (∃ call, f.owns x call ∧ (x, call) ∈ sites text (id :: others))
        ∨ x = behindToken text id.span.stop
          ∧ ∃ call, f.owns x call ∧ call.arguments = id :: others) :
    ∃ items' t', manyUntil (isMarkOrEnd ")") (argument g') limit' c' s' = .done items' t'
      ∧ items'.map Node.plain = f.growArguments (id :: others) ((id :: others).map f.mirror)
      ∧ t.Twin f t' := by
  obtain ⟨hstop, hnone, s₁, hitem, -, -, ⟨hnil, -⟩ | ⟨hcomma, hbehind, limit₀, rfl, hrest⟩⟩ :=
    manyArguments_id hg hc hs hid h
  · exact absurd hnil hothers
  have hplace := hbehind hothers
  rw [hplace] at hcovers
  have hfirst := (element_rereads hg).moves hc hs hitem
  have hon := hfirst.reaches.on
  have hon' := hon.next.1.on
  have hlater := manyArguments_moves hg hc hon' hrest
  obtain ⟨hcovers₁, hcalm₂, hcovers₂, hput⟩ :=
    covers_comma hfirst hcomma hlater hnone hcalm hcovers
  -- the id is read again, then what is put in behind the comma, then the other arguments
  obtain ⟨id', u₁, hrun₁, halike, htwin₁⟩ :=
    (element_rereads hg).twin hc hs hitem hc' hs' hcalm hcovers₁
  have hclear := (hfirst.calm (.nil s) hcalm hcovers₁).clear hon
  obtain ⟨ns, u₂, htakes, hsize, hns, htwin₂⟩ := takes_put (c := c') hg.legible hon htwin₁ hclear
    (by rw [hcomma]; rfl) fun hne => by
      obtain ⟨call, howns, hcall⟩ := hput hne
      obtain ⟨next, rest, rfl⟩ := List.exists_cons_of_ne_nil hothers
      exact ⟨call, howns, .inr ⟨id, next, rest, hcall, hid, hplace.symm⟩⟩
  obtain ⟨others', t', hrun₂, halike₂, htwin⟩ :=
    (manyArguments_rereads hg (show limit₀ ≤ limit' - 1 - ns.length by omega)).twin hc hon' hrest
      hc' htwin₂ hcalm₂ hcovers₂
  have hkind : u₁.reading.token.kind = .mark "," := (htwin₁.seems hclear).kind.trans hcomma
  refine ⟨[id'] ++ (ns ++ others'), t', ?_, ?_, htwin⟩
  · rw [show limit' = limit' - 1 - ns.length + ns.length + 1 by omega]
    exact manyUntil_cons (isMarkOrEnd_eq (hs'.seems (hcalm.clear hs)) hstop)
      (argument_comma hrun₁ hkind) (htakes _ _ _ hrun₂)
  · have hempty : others.isEmpty = false := by simpa using hothers
    simp only [List.map_cons, Filling.growArguments, hid, ↓reduceIte, idPlace, hempty,
      Bool.false_eq_true, hplace, List.map_append, List.singleton_append, hns]
    rw [show id'.plain = f.mirror id from halike,
      show others'.map Node.plain = others.map f.mirror from halike₂]
    rfl

theorem isMarkOrEnd_of_mark {close : String} (h : s.reading.token.kind = .mark close) :
    isMarkOrEnd close c s = .done true s := by
  simp [isMarkOrEnd, h]

/-- A literal that stands alone is read again, then the argument that is put in behind it. -/
theorem literal_put (c' : Context) (hg : g.Rereads f g') (hs : s.Reads text false)
    (hs' : s.Twin f s') {id : Node} {call : Call} (hid : Loader.isString id = true) (hcall : call.arguments = [id])
    (hplace : behindToken text call.callee.stop = s.lastEnd) (howns : f.owns id.span.stop call)
    (hput : f.put id.span.stop ≠ [])
    (hnext : s.next.reading.token.kind = .mark "," ∨ s.next.reading.token.kind = .mark ")")
    (hclear : s.next.Clear f) (hquiet : ∀ x, s.lastEnd < x → x < id.span.stop → f.put x = []) :
    ∃ value n' n u, s.reading.token.kind = .string value
      ∧ isMarkOrEnd ")" c' s' = .done false s' ∧ argument g' c' s' = .done [n'] s'.next.next
      ∧ isMarkOrEnd ")" c' s'.next.next = .done false s'.next.next
      ∧ element g' c' s'.next.next = .done n u ∧ n'.plain = .mk (.string value) ⟨0, 0⟩ []
      ∧ [n.plain] = f.nodes id.span.stop ∧ s.next.Twin f u := by
  obtain ⟨hcomplete, hfollows⟩ := hg.legible.follows howns hput hcall hid
  obtain ⟨value, spelling, hkind, hhere, hsize, hstop, hclosed⟩ := hcomplete.reads hs hplace
  obtain ⟨hkind', hrest', hlength⟩ := hs'.read_complete hs.on hhere hsize hclosed fun x hlo hhi =>
    hquiet x hlo (hstop ▸ hhi)
  rw [Filling.full, Filling.gap_eq hs.on.from_rest, hstop] at hrest' hlength
  rw [byteLength_append] at hlength
  have hat : s'.next.At (f.put id.span.stop ++ f.fill s.reading.rest) := ⟨_, by rw [← hrest']; rfl⟩
  have hmoved {u : State} (hu : u.lastEnd = s'.next.lastEnd + byteLength (f.put id.span.stop)) :
      f.Moved s.next.lastEnd u.lastEnd := by
    refine ⟨_, hs.on.from_rest, ?_⟩
    rw [hu]
    change s'.reading.token.span.stop + _ + _ = _
    omega
  obtain ⟨hcomma', hbegin, n, u, hrun, hn, ⟨earlier, hu⟩, hulast, humodule⟩ :=
    hfollows c' s'.next (f.fill s.reading.rest) hat fun u hu hulast => by
      obtain ⟨earlier, hu⟩ := hu
      have htwin := Filling.readToken_twin false _ earlier hs.on.from_rest (hmoved hulast) hclear
      rw [hu, htwin.token.kind]
      exact hnext
  obtain ⟨n', hrun', hn'⟩ := hg.legible.string c' s' value hkind' hcomma'
  have htwin : s.next.Twin f u :=
    ⟨⟨false, _, _, earlier, hs.on.from_rest, rfl, hu⟩, hmoved hulast, humodule.trans hs'.inModule⟩
  exact ⟨value, n', n, u, hkind, by simp [isMarkOrEnd, hkind'], argument_comma hrun' hcomma',
    hbegin, hrun, hn', hn, htwin⟩

/-- An id that stands alone is read again, with the argument that is put in behind it. -/
theorem manyArguments_sole (hg : g.Rereads f g') (hc : c.Plain text) (hs : s.Reads text false)
    {limit limit' : Nat} {id : Node} {call : Call} (hid : Loader.isString id = true)
    (hclose : t.reading.token.kind = .mark ")") (hlimit : limit + 2 ≤ limit')
    (h : manyUntil (isMarkOrEnd ")") (argument g) limit c s = .done [id] t) (hs' : s.Twin f s')
    (hcall : call.arguments = [id]) (hplace : behindToken text call.callee.stop = s.lastEnd)
    (howns : f.owns id.span.stop call) (hput : f.put id.span.stop ≠ [])
    (hquiet : ∀ x, s.lastEnd < x → x < t.horizon → x ≠ id.span.stop → f.put x = []) :
    ∃ items' t', manyUntil (isMarkOrEnd ")") (argument g') limit' c' s' = .done items' t'
      ∧ items'.map Node.plain = f.growArguments [id] [f.mirror id] ∧ t.Twin f t' := by
  obtain ⟨hcomplete, -⟩ := hg.legible.follows howns hput hcall hid
  obtain ⟨value, spelling, hkind, -, -, hstop, -⟩ := hcomplete.reads hs hplace
  obtain ⟨-, -, s₁, hitem, hreads₁, hend, hcases⟩ := manyArguments_id hg hc hs.on hid h
  have hon := hs.on.next.1.on
  have hlast : s.next.lastEnd = id.span.stop := hstop
  -- the original parser stands right behind the literal
  have hnext : s₁.reading.token.kind = .mark "," ∨ s₁.reading.token.kind = .mark ")" := by
    rcases hcases with ⟨-, rfl, -⟩ | ⟨hcomma, -⟩
    · exact .inr hclose
    · exact .inl hcomma
  rw [← hs.on.next.1.token_eq hreads₁ (hlast.trans hend)] at hnext
  obtain ⟨hliteral, rfl⟩ := hg.literal hkind hnext hitem
  have hend : s.next.horizon ≤ t.horizon := by
    rcases hcases with ⟨-, rfl, -⟩ | ⟨-, -, limit₀, -, hrest⟩
    · exact Nat.le_refl _
    · exact Nat.le_trans hon.horizon_le_next (manyArguments_moves hg hc hon.next.1.on hrest).horizon
  have hle : s.lastEnd ≤ id.span.stop := hlast ▸ hs.on.next.2.le
  have hclear : s.next.Clear f := fun x hlo hhi =>
    hquiet x (by omega) (Nat.lt_of_lt_of_le (Nat.lt_of_lt_of_le hhi hon.margin_le_horizon) hend)
      (by omega)
  -- the second parser reads the literal and what is put in behind it
  obtain ⟨value', n', n, u, hkind', hstart, hfirst, hbegin, hrun, hn', hn, htwin⟩ :=
    literal_put c' hg hs hs' hid hcall hplace howns hput hnext hclear fun x hlo hhi => by
      have := hon.lastEnd_lt_horizon
      exact hquiet x hlo (by omega) (by omega)
  have hplain : ([n'] ++ ([n] ++ [])).map Node.plain = f.growArguments [id] [f.mirror id] := by
    have hmirror : f.mirror id = n'.plain := by
      rw [hn', hliteral, Filling.reshapes_mirror.node (by simp), List.map_nil]
      cases hkind.symm.trans hkind'
      rfl
    simp only [Filling.growArguments, hid, ↓reduceIte, idPlace, List.isEmpty_nil, ← hn, hmirror,
      List.append_nil, List.singleton_append, List.map_cons, List.map_nil]
  have hseems := htwin.seems hclear
  obtain ⟨limit', rfl⟩ : ∃ l, limit' = l + 1 + 1 + 1 := ⟨limit' - 3, by
    rcases hcases with ⟨-, -, hpos⟩ | ⟨-, -, limit₀, rfl, -⟩ <;> omega⟩
  rcases hcases with ⟨-, rfl, -⟩ | ⟨hcomma, -, limit₀, -, hrest⟩
  · have hparen := hseems.kind.trans hclose
    refine ⟨_, u, manyUntil_cons hstart hfirst (manyUntil_cons hbegin ?_
      (manyUntil_nil _ (isMarkOrEnd_of_mark hparen))), hplain, htwin⟩
    exact bind_eq_done hrun (bind_eq_done (separator_close hparen) rfl)
  · -- a comma behind the last argument
    obtain rfl : t = s.next.next := by
      rcases manyUntil_done (.isMarkOrEnd _) hrest with ⟨-, -, hs'⟩ | ⟨-, first, _, _, _, hfirst, -,
        hnil, -⟩
      · exact hs'
      · obtain ⟨_, _, rfl, -⟩ := argument_done hfirst
        exact absurd hnil (by simp)
    have hlt := hon.next.1.on.lastEnd_lt_horizon
    have hlt' : s.next.lastEnd < s.next.next.lastEnd := by
      have := hon.here_lt_of_mark hcomma (by decide)
      have := hon.lastEnd_le.trans hon.start_le
      change _ < s.next.reading.token.span.stop
      omega
    have htwin' : s.next.next.Twin f u.next := htwin.next hon hclear fun _ =>
      hquiet _ (by change s.lastEnd < s.next.next.lastEnd; omega) hlt
        (by change s.next.next.lastEnd ≠ _; omega)
    have hparen : u.next.reading.token.kind = .mark ")" := by
      refine (htwin'.seems fun x hlo hhi => ?_).kind.trans hclose
      exact hquiet x (by omega) (Nat.lt_of_lt_of_le hhi hon.next.1.on.margin_le_horizon) (by omega)
    exact ⟨_, u.next, manyUntil_cons hstart hfirst (manyUntil_cons hbegin
      (argument_comma hrun (hseems.kind.trans hcomma))
      (manyUntil_nil _ (isMarkOrEnd_of_mark hparen))), hplain, htwin'⟩

/-! ## All arguments -/

theorem mem_callPlaces {call : Call} {x : Nat} :
    x ∈ callPlaces text call ↔ x = behindToken text call.callee.stop
      ∨ ∃ id others, call.arguments = id :: others ∧ Loader.isString id = true
        ∧ x = idPlace text id others := by
  rw [callPlaces]
  rcases call.arguments with _ | ⟨id, _ | ⟨next, others⟩⟩
  · simp
  · by_cases hid : Loader.isString id = true <;> simp [hid, idPlace]
  · by_cases hid : Loader.isString id = true <;> simp [hid, idPlace]

/-- The place behind an id is the site of no call in the arguments. -/
theorem manyArguments_place (hg : g.Rereads f g') (hc : c.Plain text) (hs : s.On text) {limit : Nat}
    {id : Node} {others : List Node} (hid : Loader.isString id = true)
    (h : manyUntil (isMarkOrEnd ")") (argument g) limit c s = .done (id :: others) t) :
    s.lastEnd ≤ idPlace text id others ∧ idPlace text id others ≤ t.lastEnd
      ∧ (others ≠ [] → s.horizon ≤ idPlace text id others)
      ∧ ∀ x ∈ sites text (id :: others), x.1 ≠ idPlace text id others := by
  obtain ⟨-, hnone, s₁, hitem, -, hend, hcases⟩ := manyArguments_id hg hc hs hid h
  have hfirst := (element_rereads hg).moves hc hs hitem
  have hle := hfirst.reaches.le
  by_cases hothers : others = []
  · subst hothers
    rw [idPlace, List.isEmpty_nil, if_pos rfl, hend]
    refine ⟨hle, ?_, fun h => absurd rfl h, by simp [hnone]⟩
    rcases hcases with ⟨-, rfl, -⟩ | ⟨-, -, limit', -, hrest⟩
    · exact Nat.le_refl _
    · have hnext := hfirst.reaches.on.next
      have hlater := manyArguments_moves hg hc hnext.1.on hrest
      exact Nat.le_trans hnext.2.le hlater.reaches.le
  · have hempty : others.isEmpty = false := by simpa using hothers
    rcases hcases with ⟨hnil, -⟩ | ⟨hcomma, hbehind, limit', -, hrest⟩
    · exact absurd hnil hothers
    · have hon := hfirst.reaches.on
      have hon' := hon.next.1.on
      have hlater := manyArguments_moves hg hc hon' hrest
      have hlt := hon'.lastEnd_lt_horizon
      have hhorizon : s₁.horizon = s₁.next.lastEnd := horizon_of_reach (by rw [hcomma]; rfl)
      rw [idPlace, hempty, if_neg (by decide), hbehind hothers]
      refine ⟨Nat.le_trans hle hon.next.2.le, hlater.reaches.le, fun _ => ?_, fun x hx => ?_⟩
      · exact hhorizon ▸ hfirst.horizon
      · rw [mem_sites_cons, hnone] at hx
        have hlo := (hlater.between (hx.resolve_left (by simp))).1
        omega

/-- Where nothing is put in behind an id the arguments stay as they are. -/
theorem growArguments_eq {items : List Node} (h : ∀ id others, items = id :: others →
    Loader.isString id = true → f.put (idPlace text id others) = []) :
    f.growArguments items (items.map f.mirror) = items.map f.mirror := by
  rcases items with _ | ⟨id, others⟩
  · rfl
  · simp only [List.map_cons, Filling.growArguments]
    split
    · rename_i hid
      rw [f.nodes_nil (h id others rfl hid), List.nil_append]
    · rfl

/-- The arguments behind the parenthesis are read again, with what is put in behind an id. -/
theorem manyArguments_retrace (hg : g.Rereads f g') (hc : c.Plain text) (hs : s.Reads text false)
    {limit limit' : Nat} {items : List Node} {call? : Option Call}
    (hclose : t.reading.token.kind = .mark ")") (hlimit : limit + 2 ≤ limit')
    (h : manyUntil (isMarkOrEnd ")") (argument g) limit c s = .done items t)
    (hcall : ∀ call, call? = some call → call.arguments = items
      ∧ behindToken text call.callee.stop = s.lastEnd)
    (hc' : c.Twin f c') (hs' : s.Twin f s')
    (hown : ∀ id others, items = id :: others → Loader.isString id = true →
      f.put (idPlace text id others) ≠ [] →
      ∃ call, f.owns (idPlace text id others) call ∧ call? = some call)
    (hinner : ∀ x, s.lastEnd < x → x < t.horizon → f.put x ≠ [] →
      (∃ call, f.owns x call ∧ (x, call) ∈ sites text items)
        ∨ ∃ id others, items = id :: others ∧ Loader.isString id = true
          ∧ x = idPlace text id others) :
    ∃ items' t', manyUntil (isMarkOrEnd ")") (argument g') limit' c' s' = .done items' t'
      ∧ items'.map Node.plain = f.growArguments items (items.map f.mirror) ∧ t.Twin f t' := by
  have hmoves := manyArguments_moves hg hc hs.on h
  have hlt := hs.on.lastEnd_lt_horizon
  have hcalm (hfar : ∀ id others, items = id :: others → Loader.isString id = true →
      f.put (idPlace text id others) ≠ [] → s.horizon ≤ idPlace text id others) : s.Calm f := by
    intro x hlo hhi
    by_contra hput
    rcases hinner x hlo (Nat.lt_of_lt_of_le hhi hmoves.horizon) hput with
      ⟨call, -, hsite⟩ | ⟨id, others, heq, hid, rfl⟩
    · exact absurd hhi (Nat.not_lt_of_ge (hmoves.between hsite).1)
    · exact absurd hhi (Nat.not_lt_of_ge (hfar id others heq hid hput))
  by_cases hsome : ∃ id others, items = id :: others ∧ Loader.isString id = true
      ∧ f.put (idPlace text id others) ≠ []
  · obtain ⟨id, others, rfl, hid, hput⟩ := hsome
    obtain ⟨call, howns, hsome⟩ := hown id others rfl hid hput
    obtain ⟨hargs, hbehind⟩ := hcall call hsome
    by_cases hothers : others = []
    · subst hothers
      rw [idPlace, List.isEmpty_nil, if_pos rfl] at hput howns
      refine manyArguments_sole hg hc hs hid hclose hlimit h hs' hargs hbehind howns hput
        fun x hlo hhi hne => ?_
      by_contra hput
      have hnone := (manyArguments_id hg hc hs.on hid h).2.1
      rcases hinner x hlo hhi hput with ⟨call, -, hsite⟩ | ⟨id', others', heq, -, rfl⟩
      · exact absurd hsite (by simp [hnone])
      · cases heq
        exact hne rfl
    · obtain ⟨-, -, hfar, -⟩ := manyArguments_place hg hc hs.on hid h
      refine manyArguments_comma hg hc hs.on hid hothers hlimit h hc' hs' (hcalm ?_)
        fun x hlo hhi hput => ?_
      · rintro id' others' heq - -
        cases heq
        exact hfar hothers
      · have hplace : idPlace text id others = behindToken text id.span.stop := by
          rw [idPlace, if_neg (by simpa using hothers)]
        refine (hinner x (by omega) hhi hput).imp_right ?_
        rintro ⟨id', others', heq, -, rfl⟩
        cases heq
        exact ⟨hplace, call, howns, hargs⟩
  · have hnone : ∀ id others, items = id :: others → Loader.isString id = true →
        f.put (idPlace text id others) = [] := fun id others heq hid =>
      not_not.mp fun hput => hsome ⟨id, others, heq, hid, hput⟩
    obtain ⟨items', t', hrun, halike, htwin⟩ :=
      (manyArguments_rereads hg (show limit ≤ limit' by omega)).twin hc hs.on h hc' hs'
        (hcalm fun id others heq hid hput => absurd (hnone id others heq hid) hput)
        fun x hlo hhi hput => by
          rcases hinner x (by omega) hhi hput with hsite | ⟨id, others, heq, hid, rfl⟩
          · exact hsite
          · exact absurd (hnone id others heq hid) hput
    exact ⟨items', t', hrun, by rw [growArguments_eq hnone]; exact halike, htwin⟩

/-- The parts of a run over arguments. -/
theorem arguments_parts {items : List Node} (h : arguments g c s = .done items t) :
    s.reading.token.kind = .mark "("
      ∧ ∃ u, manyUntil (isMarkOrEnd ")") (argument g) g.limit c s.next = .done items u
        ∧ u.reading.token.kind = .mark ")" ∧ t = u.next := by
  rw [arguments_eq] at h
  obtain ⟨_, s₁, hopen, h⟩ := bind_done h
  obtain ⟨items', s₂, hmany, h⟩ := bind_done h
  obtain ⟨_, s₃, hclose, h⟩ := bind_done h
  cases h
  obtain ⟨hopening, rfl⟩ := expect_done hopen
  obtain ⟨hclosing, rfl⟩ := expect_done hclose
  exact ⟨hopening, s₂, hmany, hclosing, rfl⟩

theorem arguments_moves (hg : g.Rereads f g') (hc : c.Plain text) (hs : s.On text)
    {items : List Node} (h : arguments g c s = .done items t) : Moves text [] s items t := by
  obtain ⟨-, u, hloop, -, rfl⟩ := arguments_parts h
  have hmany := manyArguments_moves hg hc hs.next.1.on hloop
  have hfirst : Moves text [] s items u := (Moves.next hs).trans hmany
  exact ⟨hfirst.reaches.trans hmany.reaches.on.next.2,
    Nat.le_trans hfirst.horizon hmany.reaches.on.horizon_le_next, fun x hx =>
      (hfirst.found x hx).imp_right fun h => ⟨h.1, Nat.le_trans h.2 hmany.reaches.on.next.2.le⟩⟩

/-- **Arguments are read again** with those that are put in among them. They are the arguments of
`call?`, if that is a call; then something may be put in. -/
theorem arguments_retrace (call? : Option Call) (hg : g.Rereads f g') (hc : c.Plain text)
    (hs : s.On text) {items : List Node} (h : arguments g c s = .done items t)
    (hcall : ∀ call, call? = some call → call.arguments = items
      ∧ behindToken text call.callee.stop = s.reading.token.span.stop)
    (hc' : c.Twin f c') (hs' : s.Twin f s') (hcalm : s.Calm f)
    (hcovers : ∀ x, s.horizon ≤ x → x < t.horizon → f.put x ≠ [] → ∃ call, f.owns x call
      ∧ ((x, call) ∈ sites text items ∨ call? = some call ∧ x ∈ callPlaces text call)) :
    ∃ items' t', arguments g' c' s' = .done items' t'
      ∧ items'.map Node.plain = f.nodes s.reading.token.span.stop
        ++ f.growArguments items (items.map f.mirror)
      ∧ t.Twin f t' := by
  obtain ⟨hopen, u, hloop, hclose, rfl⟩ := arguments_parts h
  have hreach : s.reading.token.kind.reach = 0 := by
    rw [hopen]
    rfl
  have hhorizon : s.horizon = s.next.lastEnd := horizon_of_reach hreach
  have hon := hs.next.1.on
  have hlt := hon.lastEnd_lt_horizon
  have hmoves := manyArguments_moves hg hc hon hloop
  have hend := hmoves.reaches.on.horizon_le_next
  -- what is put in behind the parenthesis is put in behind an id, or belongs to a call inside
  have hinner : ∀ x, s.next.lastEnd < x → x < u.next.horizon → f.put x ≠ [] →
      (∃ call, f.owns x call ∧ (x, call) ∈ sites text items)
        ∨ ∃ id others, items = id :: others ∧ Loader.isString id = true
          ∧ x = idPlace text id others := by
    intro x hlo hhi hput
    obtain ⟨call, howns, hsite | ⟨hsome, hplace⟩⟩ := hcovers x (by omega) hhi hput
    · exact .inl ⟨call, howns, hsite⟩
    · obtain ⟨hargs, hbehind⟩ := hcall call hsome
      rcases mem_callPlaces.mp hplace with hx | ⟨id, others, heq, hid, hx⟩
      · rw [hbehind] at hx
        exact absurd hx (Nat.ne_of_gt hlo)
      · exact .inr ⟨id, others, hargs.symm.trans heq, hid, hx⟩
  obtain ⟨lead, v, htakes, hsize, hlead, htwin⟩ := takes_put (c := c') hg.legible hs hs'
    (hcalm.clear hs) hreach fun hput => by
      obtain ⟨call, howns, hsite | ⟨hsome, -⟩⟩ := hcovers _ (Nat.le_of_eq hhorizon)
        (Nat.lt_of_lt_of_le hlt (Nat.le_trans hmoves.horizon hend)) hput
      · exact absurd (hmoves.between hsite).1 (Nat.not_le_of_gt hlt)
      · exact ⟨call, howns, .inl (hcall call hsome).2.symm⟩
  have hroom := hg.room
  obtain ⟨items', t', hrun', hplain, htwin'⟩ : ∃ items' t',
      manyUntil (isMarkOrEnd ")") (argument g') (g'.limit - lead.length) c' v = .done items' t'
        ∧ items'.map Node.plain = f.growArguments items (items.map f.mirror) ∧ u.Twin f t' := by
    refine manyArguments_retrace hg hc hs.next.1 hclose (by omega) hloop hcall hc' htwin
      (fun id others heq hid hput => ?_)
      fun x hlo hhi hput => hinner x hlo (Nat.lt_of_lt_of_le hhi hend) hput
    obtain ⟨hlo, hhi, -, hother⟩ := manyArguments_place hg hc hon hid (heq ▸ hloop)
    have hlt' := hmoves.reaches.on.next.1.on.lastEnd_lt_horizon
    have hle := hmoves.reaches.on.next.2.le
    obtain ⟨call, howns, hsite | ⟨hsome, -⟩⟩ := hcovers _ (by omega) (by omega) hput
    · exact absurd rfl (hother _ (heq ▸ hsite))
    · exact ⟨call, howns, hsome⟩
  have hclear : u.Clear f := by
    intro x hlo hhi
    by_contra hput
    have hle := hmoves.reaches.le
    have hhi := Nat.lt_of_lt_of_le hhi (hmoves.reaches.on.margin_le_horizon.trans hend)
    rcases hinner x (by omega) hhi hput with ⟨call, -, hsite⟩ | ⟨id, others, rfl, hid, rfl⟩
    · exact absurd hlo (Nat.not_lt_of_ge (hmoves.between hsite).2)
    · exact absurd hlo (Nat.not_lt_of_ge (manyArguments_place hg hc hon hid hloop).2.1)
  have hopen' : s'.reading.token.kind = .mark "(" := (hs'.seems (hcalm.clear hs)).kind.trans hopen
  have hclose' : t'.reading.token.kind = .mark ")" := (htwin'.seems hclear).kind.trans hclose
  refine ⟨lead ++ items', t'.next, ?_, by rw [List.map_append, hlead, hplain], ?_⟩
  · rw [arguments_eq]
    refine bind_eq_done (expect_eq hopen') (bind_eq_done (a := lead ++ items') ?_
      (bind_eq_done (expect_eq hclose') rfl))
    have hall := htakes _ _ _ hrun'
    rwa [Nat.sub_add_cancel (by omega)] at hall
  · refine htwin'.next hmoves.reaches.on hclear fun hreach => ?_
    rw [hclose] at hreach
    exact absurd hreach (by decide)

/-- Arguments that nothing is put in among are read again as they are. -/
theorem arguments_rereads (hg : g.Rereads f g') : Rereads f (arguments g) (arguments g') := by
  intro c s t items hc hs _ _ h
  have hmoves := arguments_moves hg hc hs h
  refine ⟨hmoves, fun c' s' hc' hs' hcalm hcovers => ?_⟩
  obtain ⟨items', t', hrun, hplain, htwin⟩ := arguments_retrace none hg hc hs h nofun hc'
    hs' hcalm fun x hlo hhi hput => by
      obtain ⟨call, howns, hsite⟩ := hcovers x hlo hhi hput
      exact ⟨call, howns, .inl hsite⟩
  obtain ⟨hopen, u, hloop, -, rfl⟩ := arguments_parts h
  have hhorizon : s.horizon = s.next.lastEnd := horizon_of_reach (by rw [hopen]; rfl)
  have hon := hs.next.1.on
  have hmany := manyArguments_moves hg hc hon hloop
  have hlt := hon.lastEnd_lt_horizon
  have hend := hmany.reaches.on.next.2.le
  have hlt' := hmany.reaches.on.next.1.on.lastEnd_lt_horizon
  have hfirst : f.put s.reading.token.span.stop = [] := by
    by_contra hput
    obtain ⟨call, -, hsite⟩ := hcovers s.next.lastEnd (Nat.le_of_eq hhorizon)
      (Nat.lt_of_le_of_lt (hmany.reaches.le.trans hend) hlt') hput
    exact absurd (hmany.between hsite).1 (Nat.not_le_of_gt hlt)
  have hnone : ∀ id others, items = id :: others → Loader.isString id = true →
      f.put (idPlace text id others) = [] := by
    rintro id others rfl hid
    by_contra hput
    obtain ⟨hlo, hhi, -, hother⟩ := manyArguments_place hg hc hon hid hloop
    obtain ⟨call, -, hsite⟩ := hcovers _ (by omega) (by omega) hput
    exact hother _ hsite rfl
  refine ⟨items', t', hrun, ?_, htwin⟩
  rw [f.nodes_nil hfirst, growArguments_eq hnone, List.nil_append] at hplain
  exact hplain

/-! ## Calls -/

/-- The arguments of a callee, and the node they make with it. -/
def called (g : Grammar) (start : Nat) (callee : Node) : Parser Node := do
  let items ← arguments g
  node (callKind callee items).1 start (callKind callee items).2

theorem callKind_define {callee : Node} (h : callee.kind = .identifier "define")
    (items : List Node) : callKind callee items = (.call, callee :: items) := by
  unfold callKind
  rw [h]

/-- What is put in belongs to the calls of `define`. -/
theorem mirror_call (callee : Node) (span : Span) (items : List Node) :
    f.mirror (.mk .call span (callee :: items))
      = .mk .call ⟨0, 0⟩ (f.mirror callee :: if callee.kind = .identifier "define" then
          f.nodes (behindToken text callee.span.stop) ++ f.growArguments items (items.map f.mirror)
        else items.map f.mirror) := by
  rw [Filling.mirror_mk]
  unfold Filling.grow
  rw [definition?_call]
  by_cases hdefine : callee.kind = .identifier "define"
  · rw [if_pos hdefine, if_pos hdefine]
    rfl
  · rw [if_neg hdefine, if_neg hdefine]
    rfl

section

variable {callee callee' : Node} {items items' : List Node}

/-- A call that is none of `define` has no sites of its own. -/
theorem sites_called (h : callee.kind ≠ .identifier "define") (span : Span) :
    sites text [.mk (callKind callee items).1 span (callKind callee items).2]
      ⊆ sites text (callee :: items) := by
  intro x hx
  unfold callKind at hx
  split at hx <;> dsimp only at hx
  · rw [sites_mk (by nofun)] at hx
    exact mem_sites_cons.mpr (.inr hx)
  · rw [sites_mk (by nofun)] at hx
    exact mem_sites_cons.mpr (.inr hx)
  · rwa [sites_mk (by nofun)] at hx
  · rwa [sites_mk (by nofun)] at hx
  · rwa [sites_call, if_neg h, List.nil_append] at hx

/-- A call that is none of `define` is alike if its parts are. -/
theorem called_alike (h : callee.kind ≠ .identifier "define") (hcallee : f.Alike callee callee')
    (hitems : f.AlikeAll items items') (span span' : Span) :
    f.Alike (.mk (callKind callee items).1 span (callKind callee items).2)
      (.mk (callKind callee' items').1 span' (callKind callee' items').2) := by
  have hall := AlikeAll.cons hcallee hitems
  unfold callKind
  rw [hcallee.kind]
  split <;> dsimp only
  · exact .mk (by nofun) _ _ hitems
  · exact .mk (by nofun) _ _ hitems
  · exact .mk (by nofun) _ _ hall
  · exact .mk (by nofun) _ _ hall
  · rw [Filling.Alike, Node.plain_mk, mirror_call, if_neg h]
    exact congrArg _ hall

/-- What is put in behind a callee does not belong to it. -/
theorem sites_behind (hs : s.On text) (hΓ : s.Holds text Γ) (hheld : Within [callee] Γ) {x : Nat}
    {call : Call} (hlo : s.horizon ≤ x) (hx : (x, call) ∈ sites text (callee :: items)) :
    (x, call) ∈ sites text items := by
  refine (mem_sites_cons.mp hx).resolve_left fun hx => ?_
  have hlt := hs.lastEnd_lt_horizon
  have hle : x ≤ s.lastEnd := hΓ _ (hheld.sites hx)
  omega

theorem sites_found (hheld : Within [callee] Γ) (hmoves : Moves text [] s items t)
    {x : Nat × Call} (hx : x ∈ sites text (callee :: items)) :
    x ∈ sites text Γ ∨ s.horizon ≤ x.1 ∧ x.1 ≤ t.lastEnd := by
  rcases mem_sites_cons.mp hx with hx | hx
  · exact .inl (hheld.sites hx)
  · exact .inr (hmoves.between hx)

variable {start start' : Nat}

/-- A call of `define` is read again, with what is put in. -/
theorem definition_retraces (hg : g.Rereads f g') (hcallee : f.Alike callee callee')
    (hheld : Within [callee] Γ) (hdefine : callee.kind = .identifier "define") :
    Retraces f (ends text · callee) Γ (called g start callee) (called g' start' callee') := by
  intro c s t n hc hs hends hΓ hrun
  obtain ⟨items, u, hargs, hnode⟩ := bind_done hrun
  cases hnode
  have hmoves := arguments_moves hg hc hs hargs
  obtain ⟨hopen, u, hloop, -, hu⟩ := arguments_parts hargs
  rw [callKind_define hdefine]
  obtain ⟨hreads, hstop⟩ := hends (by rw [hdefine]; rfl)
  have hplace : behindToken text callee.span.stop = s.next.lastEnd := by
    rw [hstop]
    exact (hreads.passed hopen).behindToken_eq
  refine ⟨⟨hmoves.reaches, hmoves.horizon, fun x hx => ?_⟩, fun c' s' hc' hs' hcalm hcovers => ?_⟩
  · rw [nodes_node, sites_call, if_pos hdefine, List.mem_append] at hx
    rcases hx with hx | hx
    · obtain ⟨place, hplaces, rfl⟩ := List.mem_map.mp hx
      have hhorizon : s.horizon = s.next.lastEnd := horizon_of_reach (by rw [hopen]; rfl)
      have hmany := manyArguments_moves hg hc hs.next.1.on hloop
      have hend : u.lastEnd ≤ t.lastEnd := hu ▸ hmany.reaches.on.next.2.le
      have hle := hmany.reaches.le
      rcases mem_callPlaces.mp hplaces with rfl | ⟨id, others, rfl, hid, rfl⟩
      · exact .inr (by simp only [hplace]; omega)
      · obtain ⟨hlo, hhi, -⟩ := manyArguments_place hg hc hs.next.1.on hid hloop
        exact .inr ⟨by omega, by omega⟩
    · exact sites_found hheld hmoves hx
  · obtain ⟨items', t', hargs', hplain, htwin⟩ := arguments_retrace
      (some ⟨.define, callee.span, items, ⟨start, t.lastEnd⟩⟩) hg hc hs hargs
      (fun call hcall => by cases hcall; exact ⟨rfl, hplace⟩) hc' hs' hcalm
      fun x hlo hhi hput => by
        obtain ⟨call, howns, hx⟩ := hcovers x hlo hhi hput
        rw [nodes_node, sites_call, if_pos hdefine, List.mem_append] at hx
        refine ⟨call, howns, ?_⟩
        rcases hx with hx | hx
        · obtain ⟨place, hplaces, heq⟩ := List.mem_map.mp hx
          cases heq
          exact .inr ⟨rfl, hplaces⟩
        · exact .inl (sites_behind hs hΓ hheld hlo hx)
    refine ⟨_, t', bind_eq_done hargs' rfl, ?_, htwin⟩
    change f.Alike _ _
    rw [callKind_define (hcallee.kind.trans hdefine), Filling.Alike, Node.plain_mk, mirror_call,
      if_pos hdefine, List.map_cons, hplain, hplace,
      show callee'.plain = f.mirror callee from hcallee]
    rfl

/-- **A call is read again**, with what is put in if it is a call of `define`. -/
theorem called_retraces (hg : g.Rereads f g') (hcallee : f.Alike callee callee')
    (hheld : Within [callee] Γ) :
    Retraces f (ends text · callee) Γ (called g start callee) (called g' start' callee') := by
  by_cases hdefine : callee.kind = .identifier "define"
  · exact definition_retraces hg hcallee hheld hdefine
  · intro c s t n hc hs _ hΓ hrun
    obtain ⟨items, u, hargs, hnode⟩ := bind_done hrun
    cases hnode
    have hmoves := arguments_moves hg hc hs hargs
    refine ⟨⟨hmoves.reaches, hmoves.horizon, fun x hx =>
      sites_found hheld hmoves (sites_called hdefine _ hx)⟩, fun c' s' hc' hs' hcalm hcovers => ?_⟩
    obtain ⟨items', t', hargs', halike, htwin⟩ := (arguments_rereads hg).twin hc hs hargs hc' hs'
      hcalm fun x hlo hhi hput => by
        obtain ⟨call, howns, hx⟩ := hcovers x hlo hhi hput
        exact ⟨call, howns, sites_behind hs hΓ hheld hlo (sites_called hdefine _ hx)⟩
    exact ⟨_, t', bind_eq_done hargs' rfl, called_alike hdefine hcallee halike _ _, htwin⟩

end

end Parser

end AmdModules.Script
