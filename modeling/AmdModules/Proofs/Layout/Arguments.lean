import AmdModules.Proofs.Layout.Pattern

/-!
# Arguments of calls

The parentheses and commas of a call are not in its tree. What the tree leaves out is kept here:
`Enclosed` says of the arguments that were just read where the opening parenthesis ended, that the
comma behind an id was read right behind it, and that all calls in them end before the closing
parenthesis does. From that a call can be formed (`Enclosed.call`): its own places lie between the
places of what was read before and of what stands in its arguments.
-/

set_option autoImplicit false

namespace AmdModules.Script

open Text Yields
open Loader (Call)
open Normalize (isUseStrict)

namespace Parser

variable {α β : Type} {text : List Char} {g : Grammar} {c : Context} {s s' : State}

/-! ## Runs that end well -/

theorem refuse_ne_done (c : Context) {a : α} : (refuse : Parser α) c s ≠ .done a s' := by
  simp [refuse]

theorem expect_done {m : String} {u : Unit} (h : expect m c s = .done u s') :
    s.reading.token.kind = .mark m ∧ s' = s.next := by
  obtain ⟨b, s₁, heat, h⟩ := bind_done h
  obtain ⟨b', s₂, hmark, heat⟩ := bind_done heat
  cases hmark
  split at heat
  · rename_i hm
    cases heat
    cases h
    exact ⟨by simpa using hm, rfl⟩
  · cases heat
    exact absurd h (refuse_ne_done c)

theorem separator_done {close : String} {u : Unit} (h : separator close c s = .done u s') :
    s.reading.token.kind = .mark close ∧ s' = s
      ∨ s.reading.token.kind = .mark "," ∧ s' = s.next := by
  obtain ⟨b, s₁, hmark, h⟩ := bind_done h
  cases hmark
  split at h
  · rename_i hm
    cases h
    exact .inl ⟨by simpa using hm, rfl⟩
  · exact .inr (expect_done h)

/-- A repetition that ends well stops at once or goes on behind its first item. -/
theorem manyUntil_done {stop : Parser Bool} {item : Parser (List α)} {limit : Nat}
    {items : List α} (hstop : IsRead stop) (h : manyUntil stop item limit c s = .done items s') :
    stop c s = .done true s ∧ items = [] ∧ s' = s
      ∨ stop c s = .done false s ∧ ∃ first s₁ others limit', item c s = .done first s₁
        ∧ manyUntil stop item limit' c s₁ = .done others s' ∧ items = first ++ others
        ∧ limit = limit' + 1 := by
  cases limit with
  | zero => exact absurd h (by simp [manyUntil, exhausted])
  | succ limit =>
    obtain ⟨b, s₁, hrun, h⟩ := bind_done h
    obtain ⟨b', hb'⟩ := hstop c s
    rw [hb'] at hrun
    cases hrun
    cases b with
    | true =>
      cases h
      exact .inl ⟨hb', rfl, rfl⟩
    | false =>
      obtain ⟨first, s₁, hfirst, h⟩ := bind_done h
      obtain ⟨others, s₂, hothers, h⟩ := bind_done h
      cases h
      exact .inr ⟨hb', first, s₁, others, limit, hfirst, hothers, rfl, rfl⟩

/-! ## Arguments -/

theorem element_lays (hg : g.Lays text) : Lays text (element g) := by
  intro lo
  refine .position fun start hstart => .eatIf (eat_eats _) ?_ (allowingIn_lays hg.assignment lo)
  exact .step (allowingIn_lays hg.assignment) fun inner _ => .node rfl hstart (by grind)

/-- One argument and what separates it from the next. -/
def argument (g : Grammar) : Parser (List Node) := do
  let item ← element g
  separator ")"
  return [item]

theorem argument_lays (hg : g.Lays text) : Lays text (argument g) := by
  intro lo
  refine .step (element_lays hg) fun item _ => .step (separator_lays _) fun _ _ => ?_
  exact .pure (fun _ _ => trivial) trivial (by grind)

theorem arguments_eq (g : Grammar) :
    arguments g = (do
      expect "("
      let items ← manyUntil (isMarkOrEnd ")") (argument g) g.limit
      expect ")"
      return items) :=
  rfl

theorem arguments_lays (hg : g.Lays text) : Lays text (arguments g) := by
  intro lo
  rw [arguments_eq]
  refine .step (expect_lays _) fun _ _ => ?_
  refine .step (manyUntil_lays (.isMarkOrEnd _) (argument_lays hg) _) fun items _ => ?_
  exact .step (expect_lays _) fun _ _ => .pure (fun _ _ => trivial) trivial (by grind)

/-- What was read between parentheses, from `s` to `s'`. -/
structure Enclosed (text : List Char) (s s' : State) (items : List Node) : Prop where
  opening : s.reading.token.kind = .mark "("
  reaches : Reaches text s.next s'
  owned : Owned text s.next.lastEnd s' items
  inside : ∀ m ∈ landmarks items, m.kind = .call → m.span.stop < s'.lastEnd
  comma : ∀ id next others, items = id :: next :: others → Loader.isString id = true →
    id.parts = [] ∧ s.next.lastEnd ≤ id.span.stop
      ∧ ∃ stop, Passed text s' id.span.stop "," stop ∧ stop ≤ next.span.start
        ∧ next.span.start ≤ byteLength text ∧ Owned text stop s' (next :: others)
  sole : ∀ id, items = [id] → Loader.isString id = true →
    id.parts = [] ∧ s.next.lastEnd ≤ id.span.stop ∧ id.span.stop ≤ s'.lastEnd

theorem Kind.isLeaf_of_isString {n : Node} (h : Loader.isString n = true) :
    n.kind.isLeaf = true := by
  unfold Loader.isString Loader.stringValue? at h
  split at h
  · rename_i hkind
    rw [hkind]
    rfl
  · exact absurd h (by simp)

/-- One argument and its separator: the parser stands behind it, or behind its comma. -/
theorem argument_done {first : List Node} (h : argument g c s = .done first s') :
    ∃ item s₁, first = [item] ∧ element g c s = .done item s₁
      ∧ (s₁.reading.token.kind = .mark ")" ∧ s' = s₁
        ∨ s₁.reading.token.kind = .mark "," ∧ s' = s₁.next) := by
  obtain ⟨item, s₁, hitem, h⟩ := bind_done h
  obtain ⟨u, s₂, hsep, h⟩ := bind_done h
  cases h
  exact ⟨item, s₁, rfl, hitem, separator_done hsep⟩

/-- Whether more arguments follow where the closing parenthesis stands. -/
theorem manyUntil_at_close {limit : Nat} {items : List Node}
    (hclose : s.reading.token.kind = .mark ")")
    (h : manyUntil (isMarkOrEnd ")") (argument g) limit c s = .done items s') :
    items = [] ∧ s' = s := by
  rcases manyUntil_done (.isMarkOrEnd _) h with ⟨-, hitems, hs'⟩ | ⟨hstop, -⟩
  · exact ⟨hitems, hs'⟩
  · exact absurd hstop (by simp [isMarkOrEnd, hclose])

theorem manyArguments_lays (hg : g.Lays text) (limit : Nat) :
    Lays text (manyUntil (isMarkOrEnd ")") (argument g) limit) :=
  manyUntil_lays (.isMarkOrEnd _) (argument_lays hg) _

/-- The parser stood right behind an id that comes first, and went on over a comma if more
followed. -/
theorem manyUntil_id (hg : g.Lays text) (hc : c.markup = false) (hs : s.On text) {limit : Nat}
    {id : Node} {rest : List Node} (hid : Loader.isString id = true)
    (h : manyUntil (isMarkOrEnd ")") (argument g) limit c s = .done (id :: rest) s') :
    ∃ s₁, id.parts = [] ∧ Reaches text s s₁ ∧ s₁.Reads text false ∧ id.span.stop = s₁.lastEnd
      ∧ (rest = [] ∧ s' = s₁
        ∨ s₁.reading.token.kind = .mark ","
          ∧ ∃ limit', manyUntil (isMarkOrEnd ")") (argument g) limit' c s₁.next
            = .done rest s') := by
  rcases manyUntil_done (.isMarkOrEnd _) h with ⟨-, hnil, -⟩ | ⟨-, first, s₂, rest', limit',
    hfirst, hrest, hsplit, -⟩
  · exact absurd hnil (by simp)
  · obtain ⟨item, s₁, rfl, hitem, hsep⟩ := argument_done hfirst
    obtain ⟨rfl, rfl⟩ : id = item ∧ rest = rest' := by simpa using hsplit
    obtain ⟨hreach, hbegins, hends, -⟩ := (element_lays hg).done hc hs hitem
    have hleaf := Kind.isLeaf_of_isString hid
    refine ⟨s₁, (hbegins.2 hleaf).1, hreach, (hends hleaf).1, (hends hleaf).2, ?_⟩
    rcases hsep with ⟨hparen, rfl⟩ | ⟨hcomma, rfl⟩
    · exact .inl (manyUntil_at_close hparen hrest)
    · exact .inr ⟨hcomma, limit', hrest⟩

/-- The first argument starts where reading it started. -/
theorem manyUntil_start (hg : g.Lays text) (hc : c.markup = false) (hs : s.On text) {limit : Nat}
    {first : Node} {rest : List Node}
    (h : manyUntil (isMarkOrEnd ")") (argument g) limit c s = .done (first :: rest) s') :
    Starts text s.lastEnd first.span.start := by
  rcases manyUntil_done (.isMarkOrEnd _) h with ⟨-, hnil, -⟩ | ⟨-, first', s₂, rest', limit',
    hfirst, -, hsplit, -⟩
  · exact absurd hnil (by simp)
  · obtain ⟨item, s₁, rfl, hitem, -⟩ := argument_done hfirst
    obtain ⟨rfl, -⟩ : first = item ∧ rest = rest' := by simpa using hsplit
    have hstart := ((element_lays hg).done hc hs hitem).2.1.1
    exact ⟨Nat.le_trans hs.lastEnd_le hstart.1, hstart.2⟩

/-- **The arguments of a call stand between its parentheses.** -/
theorem arguments_done (hg : g.Lays text) (hc : c.markup = false) (hs : s.On text)
    {items : List Node} (h : arguments g c s = .done items s') : Enclosed text s s' items := by
  rw [arguments_eq] at h
  obtain ⟨u, s₁, hopen, h⟩ := bind_done h
  obtain ⟨items', s₂, hmany, h⟩ := bind_done h
  obtain ⟨u', s₃, hclose, h⟩ := bind_done h
  cases h
  obtain ⟨hopening, rfl⟩ := expect_done hopen
  obtain ⟨hclosing, rfl⟩ := expect_done hclose
  have hon := hs.next.2.on
  obtain ⟨hreach, -, -, howned⟩ := (manyArguments_lays hg _).done hc hon hmany
  have hreach' := hreach.on.next.2
  -- the closing parenthesis has a character of its own
  have hlt : s₂.lastEnd < s₂.next.lastEnd := by
    have h₁ := hreach.on.lastEnd_le
    have h₂ := hreach.on.start_le
    have h₃ := hreach.on.here_lt_of_mark hclosing (by decide)
    simp only [State.next, State.jump]
    omega
  refine ⟨hopening, hreach.trans hreach', (howned.reaches hreach').mono hon.lastEnd_le,
    fun m hm hcall => ?_,
    fun id next others heq hid => ?_, fun id heq hid => ?_⟩
  · exact Nat.lt_of_le_of_lt ((howned.settled m hm).stop_le hcall) hlt
  · subst heq
    obtain ⟨s₃, hparts, hreach₃, hreads, hstop, ⟨hnil, -⟩ | ⟨hcomma, limit, hrest⟩⟩ :=
      manyUntil_id hg hc hon hid hmany
    · exact absurd hnil (by simp)
    · have hon₃ := hreach₃.on.next.2.on
      obtain ⟨hreach₄, -, -, howned₄⟩ := (manyArguments_lays hg _).done hc hon₃ hrest
      have hstart := manyUntil_start hg hc hon₃ hrest
      have hpassed := hreads.passed hcomma
      rw [← hstop] at hpassed
      refine ⟨hparts, ?_, s₃.next.lastEnd, (hpassed.reaches hreach₄).reaches hreach', hstart.1,
        hstart.2, (howned₄.reaches hreach').mono hon₃.lastEnd_le⟩
      rw [hstop]
      exact hreach₃.le
  · subst heq
    obtain ⟨s₃, hparts, hreach₃, -, hstop, hend⟩ := manyUntil_id hg hc hon hid hmany
    have hle : s₃.lastEnd ≤ s₂.lastEnd := by
      rcases hend with ⟨-, rfl⟩ | ⟨-, limit, hrest⟩
      · exact Nat.le_refl _
      · have hreach₄ := hreach₃.on.next.2
        exact Nat.le_trans hreach₄.le ((manyArguments_lays hg _).done hc hreach₄.on hrest).1.le
    rw [hstop]
    exact ⟨hparts, hreach₃.le, Nat.le_trans hle hreach'.le⟩

/-! ## Forming a call -/

/-- A call is one of `define` when its callee is that name. -/
theorem definition?_call (callee : Node) (span : Span) (items : List Node) :
    Call.definition? (.mk .call span (callee :: items))
      = if callee.kind = .identifier "define" then some ⟨.define, callee.span, items, span⟩
        else none := by
  obtain ⟨kind, place, parts⟩ := callee
  cases kind
  case identifier name =>
    simp only [Call.definition?, Call.ofNode?, Loader.Function.ofName?, Node.kind, Node.span,
      Kind.identifier.injEq]
    split <;> simp_all
  all_goals simp [Call.definition?, Call.ofNode?, Node.kind]

theorem landmarks_leaf {n : Node} (hleaf : n.kind.isLeaf = true) (hparts : n.parts = [])
    (ns : List Node) : landmarks (n :: ns) = landmarks ns := by
  obtain ⟨kind, span, parts⟩ := n
  have hkind : kind.isLandmark = false := by
    cases kind
    case string | identifier => rfl
    all_goals exact absurd hleaf (by simp [Node.kind, Kind.isLeaf])
  simp only [Node.parts] at hparts
  simp [landmarks_mk, hkind, hparts]

/-- The places of a call of `define` lie between what was read before it and its arguments. -/
theorem Enclosed.spaced {items : List Node} {callee : Span} {lo : Nat} {before : List Span}
    (h : Enclosed text s s' items) (span : Span) (hreads : s.Reads text false)
    (hcallee : callee.stop = s.lastEnd)
    (hlo : lo ≤ s.next.lastEnd) (hbefore : Spaced lo s.lastEnd before) :
    Spaced lo s'.lastEnd (before
      ++ (callPlaces text ⟨.define, callee, items, span⟩).map (fun place => ⟨place, place⟩)
      ++ (landmarks items).flatMap (places text)) := by
  have hpassed := hreads.passed h.opening
  rw [← hcallee] at hpassed
  have hle := hreads.on.next.2.le
  have hopening := hbefore.point hlo hle
  -- without an id in front, only the place behind the parenthesis counts
  have hplain : Spaced lo s'.lastEnd (before ++ [⟨s.next.lastEnd, s.next.lastEnd⟩]
      ++ (landmarks items).flatMap (places text)) :=
    hopening.append h.owned.spaced hlo (Nat.le_refl _) h.reaches.le
  simp only [callPlaces, hpassed.behindToken_eq]
  split
  · exact hplain
  · rename_i id
    split
    · rename_i hid
      obtain ⟨hparts, hfrom, hto⟩ := h.sole id rfl hid
      rw [landmarks_leaf (Kind.isLeaf_of_isString hid) hparts]
      simpa using (hopening.point (Nat.le_trans hlo hfrom) hfrom).mono (Nat.le_refl _) hto
    · exact hplain
  · rename_i id next others
    split
    · rename_i hid
      obtain ⟨hparts, hfrom, stop, hcomma, -, -, howned⟩ := h.comma id next others rfl hid
      have hlt := hcomma.lt (by decide)
      rw [landmarks_leaf (Kind.isLeaf_of_isString hid) hparts, hcomma.behindToken_eq]
      have hboth := hopening.point (show lo ≤ stop by omega) (by omega)
      simpa using hboth.append howned.spaced (by omega) (Nat.le_refl _) hcomma.le
    · exact hplain

/-- What was known of the arguments of a call and of what was held before is known of both. -/
theorem Enclosed.spread_append {items : List Node} {lo : Nat} {before : List (List Nat)}
    (h : Enclosed text s s' items) (hs : s.On text) (hlo : lo ≤ s.next.lastEnd)
    (hbefore : Spread lo s.lastEnd before) :
    Spread lo s'.lastEnd (before ++ (landmarks items).map (spots text)) :=
  hbefore.append h.owned.spread hlo hs.next.2.le (Nat.le_trans hs.next.2.le h.reaches.le)

/-- The places of a call lie between its parentheses, and are those of no call among its
arguments. -/
theorem Enclosed.mem_callPlaces {items : List Node} {callee : Span} (h : Enclosed text s s' items)
    (span : Span) (hreads : s.Reads text false) (hcallee : callee.stop = s.lastEnd) {x : Nat}
    (hx : x ∈ callPlaces text ⟨.define, callee, items, span⟩) :
    s.next.lastEnd ≤ x ∧ x ≤ s'.lastEnd
      ∧ ∀ group ∈ (landmarks items).map (spots text), x ∉ group := by
  have hpassed := hreads.passed h.opening
  rw [← hcallee] at hpassed
  have hle := h.reaches.le
  have hbehind {lo x : Nat} {ns : List Node} (howned : Owned text lo s' ns) (hx : x ≤ lo) :
      ∀ group ∈ (landmarks ns).map (spots text), x ∉ group := by
    intro group hgroup hmem
    have := (howned.spread.bounds group hgroup x hmem).1
    omega
  rw [callPlaces, hpassed.behindToken_eq] at hx
  rcases List.mem_cons.mp hx with rfl | hplace
  · exact ⟨Nat.le_refl _, hle, hbehind h.owned (Nat.le_refl _)⟩
  · clear hx
    split at hplace
    · cases hplace
    · rename_i id hitems
      obtain rfl : items = [id] := hitems
      obtain ⟨hid, hplace⟩ := List.mem_ite_nil_right.mp hplace
      obtain rfl := List.mem_singleton.mp hplace
      obtain ⟨hparts, hfrom, hto⟩ := h.sole id rfl hid
      rw [landmarks_leaf (Kind.isLeaf_of_isString hid) hparts]
      exact ⟨hfrom, hto, by simp⟩
    · rename_i id next others hitems
      obtain rfl : items = id :: next :: others := hitems
      obtain ⟨hid, hplace⟩ := List.mem_ite_nil_right.mp hplace
      obtain ⟨hparts, hfrom, stop, hcomma, -, -, howned⟩ := h.comma id next others rfl hid
      have hlt := hcomma.lt (by decide)
      have hto := hcomma.le
      rw [hcomma.behindToken_eq] at hplace
      obtain rfl := List.mem_singleton.mp hplace
      rw [landmarks_leaf (Kind.isLeaf_of_isString hid) hparts]
      exact ⟨by omega, hto, hbehind howned (Nat.le_refl _)⟩

/-- The places of a call of `define` are those of no other call. -/
theorem Enclosed.spread {items : List Node} {callee : Span} {lo : Nat} {before : List (List Nat)}
    (h : Enclosed text s s' items) (span : Span) (hreads : s.Reads text false)
    (hcallee : callee.stop = s.lastEnd)
    (hlo : lo < s.next.lastEnd) (hbefore : Spread lo s.lastEnd before) :
    Spread lo s'.lastEnd (callPlaces text ⟨.define, callee, items, span⟩
      :: (before ++ (landmarks items).map (spots text))) := by
  have hlt := (hreads.passed h.opening).lt (by decide)
  refine (h.spread_append hreads.on (Nat.le_of_lt hlo) hbefore).cons (fun x hx => ?_)
    fun x hx group hgroup hmem => ?_
  · obtain ⟨hfrom, hto, -⟩ := h.mem_callPlaces span hreads hcallee hx
    omega
  · obtain ⟨hfrom, -, hinside⟩ := h.mem_callPlaces span hreads hcallee hx
    rcases List.mem_append.mp hgroup with hgroup | hgroup
    · have := (hbefore.bounds group hgroup x hmem).2
      omega
    · exact hinside group hgroup hmem

theorem landmarks_cons (n : Node) (ns : List Node) :
    landmarks (n :: ns) = landmarks [n] ++ landmarks ns := by
  rw [← List.singleton_append, landmarks_append]

/-- A call that was just read is where its tree says it is. -/
theorem Enclosed.settled {items Γ : List Node} {callee : Node} {lo : Nat} (start : Nat)
    (h : Enclosed text s s' items) (hs : s.On text) (hends : ends text s callee)
    (hΓ : Owned text lo s (callee :: Γ)) :
    Settled text s' (.mk .call ⟨start, s'.lastEnd⟩ (callee :: items)) := by
  refine ⟨fun _ => Nat.le_refl _, fun _ m hm hcall => ?_, fun call hcall => ?_⟩
  · rw [show (Node.mk .call ⟨start, s'.lastEnd⟩ (callee :: items)).parts = callee :: items from rfl,
      landmarks_cons] at hm
    rcases List.mem_append.mp hm with hm | hm
    · -- what was read before the parenthesis ends before it
      have hset := hΓ.settled m (by rw [landmarks_cons]; exact List.mem_append_left _ hm)
      have h₁ := hset.stop_le hcall
      have h₂ := hs.lastEnd_le
      have h₃ := hs.start_le
      have h₄ := hs.here_lt_of_mark h.opening (by decide)
      have h₅ := h.reaches.le
      simp only [State.next, State.jump] at h₅
      change m.span.stop < s'.lastEnd
      omega
    · exact h.inside m hm hcall
  · rw [definition?_call] at hcall
    obtain ⟨hdefine, hcall⟩ := Option.ite_none_right_eq_some.mp hcall
    cases hcall
    obtain ⟨hreads, hstop⟩ := hends (by rw [hdefine]; rfl)
    have hpassed := hreads.passed h.opening
    rw [← hstop] at hpassed
    refine ⟨⟨_, hpassed.reaches h.reaches, h.reaches.le⟩, fun id next others hitems hid => ?_,
      fun id hitems hid => (h.sole id hitems hid).2.2, fun id others hitems hid => ?_⟩
    · obtain ⟨-, -, stop, hcomma, hstart, hend, -⟩ := h.comma id next others hitems hid
      exact ⟨stop, hcomma, hstart, hend⟩
    · rw [hpassed.behindToken_eq]
      cases others with
      | nil => exact (h.sole id hitems hid).2.1
      | cons next others => exact (h.comma id next others hitems hid).2.1

/-- **A call that was just read may be held in place of its callee.** -/
theorem Enclosed.call {items Γ : List Node} {callee : Node} {lo : Nat} (start : Nat)
    (h : Enclosed text s s' items) (hs : s.On text) (hbegins : begins text lo callee)
    (hends : ends text s callee) (hΓ : Owned text lo s (callee :: Γ)) :
    Owned text lo s' (.mk .call ⟨start, s'.lastEnd⟩ (callee :: items) :: Γ) := by
  have hreach : Reaches text s s' := hs.next.2.trans h.reaches
  have hsplit : landmarks (.mk .call ⟨start, s'.lastEnd⟩ (callee :: items) :: Γ)
      = .mk .call ⟨start, s'.lastEnd⟩ (callee :: items) :: (landmarks [callee] ++ landmarks items
        ++ landmarks Γ) := by
    rw [landmarks_mk, landmarks_cons callee items]
    rfl
  have hsettled := hΓ.settled
  have hspaced := hΓ.spaced
  have hspread := hΓ.spread
  rw [landmarks_cons] at hsettled hspaced hspread
  have hlo : lo < s.next.lastEnd :=
    Nat.lt_of_le_of_lt (Nat.le_trans hΓ.le hs.start_le) (hs.here_lt_of_mark h.opening (by decide))
  refine ⟨Nat.le_trans hΓ.le hreach.start_le, fun n hn => ?_, ?_, ?_⟩
  · rw [hsplit, List.mem_cons, List.mem_append, List.mem_append] at hn
    rcases hn with rfl | (hn | hn) | hn
    · exact h.settled start hs hends hΓ
    · exact (hsettled n (List.mem_append_left _ hn)).reaches hreach
    · exact h.owned.settled n hn
    · exact (hsettled n (List.mem_append_right _ hn)).reaches hreach
  · rw [hsplit, List.flatMap_cons, places, definition?_call]
    by_cases hdefine : callee.kind = .identifier "define"
    · -- the name has no places of its own, so those of the call follow what was held
      have hleaf : callee.kind.isLeaf = true := by rw [hdefine]; rfl
      obtain ⟨hreads, hstop⟩ := hends hleaf
      rw [landmarks_leaf hleaf (hbegins.2 hleaf).1] at hspaced ⊢
      have hall := h.spaced ⟨start, s'.lastEnd⟩ hreads hstop (Nat.le_of_lt hlo) hspaced
      rw [List.append_assoc] at hall
      simpa [isUseStrict, hdefine] using hall.comm
    · rw [List.flatMap_append] at hspaced
      have hall := hspaced.append h.owned.spaced (Nat.le_of_lt hlo) hs.next.2.le hreach.le
      rw [List.append_assoc] at hall
      simpa [isUseStrict, hdefine] using
        hall.subperm (List.perm_append_comm.append_left _).subperm
  · rw [hsplit, List.map_cons, List.append_assoc, List.map_append, List.map_append, spots,
      definition?_call]
    by_cases hdefine : callee.kind = .identifier "define"
    · have hleaf : callee.kind.isLeaf = true := by rw [hdefine]; rfl
      obtain ⟨hreads, hstop⟩ := hends hleaf
      rw [landmarks_leaf hleaf (hbegins.2 hleaf).1, landmarks_nil, List.nil_append] at hspread
      rw [landmarks_leaf hleaf (hbegins.2 hleaf).1, landmarks_nil, List.map_nil, List.nil_append,
        if_pos hdefine]
      exact (h.spread ⟨start, s'.lastEnd⟩ hreads hstop hlo hspread).subperm
        (List.perm_append_comm.cons _).subperm
    · rw [List.map_append] at hspread
      have hall := h.spread_append hs (Nat.le_of_lt hlo) hspread
      rw [if_neg hdefine]
      refine (hall.cons (by simp) (by simp)).subperm (List.Perm.cons _ ?_).subperm
      rw [List.append_assoc]
      exact List.perm_append_comm.append_left _

/-- What is known behind the arguments of a call. -/
def Callable (text : List Char) (lo : Nat) (Γ : List Node) (callee : Node) (items : List Node)
    (s : State) : Prop :=
  ∀ start, Owned text lo s (.mk .call ⟨start, s.lastEnd⟩ (callee :: items) :: Γ)

theorem arguments_tracks (hg : g.Lays text) {lo : Nat} {Γ : List Node} {callee : Node}
    (hbegins : begins text lo callee) :
    Tracks text lo (ends text · callee) (callee :: Γ) (arguments g)
      (Callable text lo Γ callee) := by
  intro c s hc hs hends hΓ
  have hlays := arguments_lays hg lo c s hc hs trivial (.nil hΓ.le)
  cases hrun : arguments g c s with
  | done items s' =>
    rw [hrun] at hlays
    exact ⟨hlays.1, fun start => (arguments_done hg hc hs hrun).call start hs hbegins hends hΓ⟩
  | refused s' =>
    rw [hrun] at hlays
    exact hlays
  | exhausted => trivial

theorem occurrences_parts_le (kind : Kind) (span : Span) (parts : List Node) (x : Node) :
    occurrences parts x ≤ (Node.mk kind span parts).occurrences x := by
  simp only [occurrences, Node.occurrences, landmarks_mk, landmarks_nil, List.append_nil,
    List.count_append]
  omega

/-- The trees of a call that is not formed. -/
theorem Callable.parts {lo : Nat} {Γ : List Node} {callee : Node} {items : List Node}
    (h : Callable text lo Γ callee items s) : Owned text lo s (callee :: items ++ Γ) := by
  refine (h 0).within fun x => ?_
  have := occurrences_parts_le .call ⟨0, s.lastEnd⟩ (callee :: items) x
  simp only [occurrences_append, occurrences_cons] at this ⊢
  omega

variable {lo start : Nat} {Γ : List Node} {callee : Node} {items parts : List Node} {kind : Kind}

/-- The parser goes on with the trees of a call that is not formed. -/
theorem Tracks.uncall {p : Parser β} {Q : β → State → Prop}
    (hp : Tracks text lo (fun _ => True) (callee :: items ++ Γ) p Q) :
    Tracks text lo (Callable text lo Γ callee items) [] p Q :=
  .conseq hp fun _ _ hcallable _ => ⟨trivial, hcallable.parts⟩

theorem Tracks.call (hstart : Starts text lo start) :
    Tracks text lo (Callable text lo Γ callee items) [] (Parser.node .call start (callee :: items))
      (Leaves text lo Γ) := by
  intro c s hc hs hcallable _
  exact ⟨.refl hs, .mk rfl hstart (hcallable start)⟩

/-- A call is a landmark when its callee is an ordinary one. -/
theorem Tracks.callNode (hkind : callKind callee items = (kind, parts))
    (hstart : Starts text lo start) :
    Tracks text lo (Callable text lo Γ callee items) [] (Parser.node kind start parts)
      (Leaves text lo Γ) := by
  unfold callKind at hkind
  split at hkind
  · cases hkind
    exact .uncall (.node rfl hstart (by grind))
  · cases hkind
    exact .uncall (.node rfl hstart (by grind))
  · cases hkind
    exact .uncall (.node rfl hstart (.refl _))
  · cases hkind
    exact .uncall (.node rfl hstart (.refl _))
  · cases hkind
    exact .call hstart

end Parser

end AmdModules.Script
