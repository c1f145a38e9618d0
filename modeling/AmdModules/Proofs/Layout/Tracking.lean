import AmdModules.Proofs.Layout.Landmark
import AmdModules.Script.Parser.Member

/-!
# Tracking what a parser holds

A production reads parts and puts them together. `Tracks` follows what it holds meanwhile: from a
state in which it holds the trees `Γ`, a parser comes to a state in which the trees of its result
and those it was to leave alone are `Owned`. The rules below take a production apart step by step;
what has to be shown at its end is only that the trees of the result were held (`Within`).

Most productions start with empty hands, and then say `Lays`: whatever they read lies behind the
place they started at, so it is apart from all that was held before (`Lays.frame`).

Two things are remembered of a result besides its trees. `begins` bounds the place a node starts at;
`ends` says of names and strings that the parser stands right behind them, which is what places the
parenthesis of a call behind its name and the comma behind its id.
-/

set_option autoImplicit false

namespace AmdModules.Script

open Text

/-- Names and strings that a call may start with. -/
def Kind.isLeaf : Kind → Bool
  | .string _ => true
  | .identifier word => word == "define"
  | _ => false

/-- Kinds without a meaning for the layout. -/
def Kind.isPlain (kind : Kind) : Bool :=
  !kind.isLandmark && !kind.isLeaf

/-- A place in the text from byte `lo` on. -/
def Starts (text : List Char) (lo start : Nat) : Prop :=
  lo ≤ start ∧ start ≤ byteLength text

/-- What is remembered of the result of a parser. -/
class Yields (α : Type) where
  /-- The trees in it. -/
  nodes : α → List Node := fun _ => []
  /-- What holds of it wherever the parser goes on. -/
  begins : List Char → Nat → α → Prop := fun _ _ _ => True
  /-- What holds of it in the state in which it was read. -/
  ends : List Char → State → α → Prop := fun _ _ _ => True

open Yields

instance : Yields Unit := { }

instance : Yields Bool := { }

instance : Yields Node where
  nodes n := [n]
  begins text lo n := Starts text lo n.span.start
    ∧ (n.kind.isLeaf = true → n.parts = [] ∧ n.span.start ≤ n.span.stop)
  ends text s n := n.kind.isLeaf = true → s.Reads text false ∧ n.span.stop = s.lastEnd

instance : Yields (List Node) where
  nodes ns := ns

instance : Yields (Option Node) where
  nodes n := n.toList

instance : Yields (Kind × List Node) where
  nodes n := n.2
  begins _ _ n := n.1.isPlain = true

@[grind =] theorem nodes_unit (a : Unit) : nodes a = [] := rfl

@[grind =] theorem nodes_bool (a : Bool) : nodes a = [] := rfl

@[grind =] theorem nodes_node (n : Node) : nodes n = [n] := rfl

@[grind =] theorem nodes_list (ns : List Node) : nodes ns = ns := rfl

@[grind =] theorem nodes_option (n : Option Node) : nodes n = n.toList := rfl

@[grind =] theorem nodes_pair (n : Kind × List Node) : nodes n = n.2 := rfl

variable {α β : Type} [Yields α] {text : List Char} {lo : Nat} {F : State → Prop}
  {Γ Γ' Γ₀ : List Node} {Q : β → State → Prop} {s : State}

/-- The parser holds its result and the trees `Γ`. -/
def Leaves (text : List Char) (lo : Nat) (Γ : List Node) (a : α) (s : State) : Prop :=
  begins text lo a ∧ ends text s a ∧ Owned text lo s (nodes a ++ Γ)

section

variable {kind : Kind} {span : Span} {parts : List Node}

theorem begins_mk (hkind : kind.isLeaf = false) (hstart : Starts text lo span.start) :
    begins text lo (Node.mk kind span parts) := by
  refine ⟨hstart, fun hleaf => ?_⟩
  exact absurd hleaf (by simp [Node.kind, hkind])

theorem ends_mk (hkind : kind.isLeaf = false) (s : State) :
    ends text s (Node.mk kind span parts) := by
  intro hleaf
  exact absurd hleaf (by simp [Node.kind, hkind])

/-- Of a node that is neither a name nor a string only its start is remembered. -/
theorem Leaves.mk (hkind : kind.isLeaf = false) (hstart : Starts text lo span.start)
    (h : Owned text lo s (.mk kind span parts :: Γ)) :
    Leaves text lo Γ (Node.mk kind span parts) s :=
  ⟨begins_mk hkind hstart, ends_mk hkind s, h⟩

end

/-- A run that started in state `s` has moved on and, if it was not refused, came to a state with
`Q`. -/
abbrev Outcome.Follows {α : Type} (text : List Char) (s : State) (Q : α → State → Prop)
    (outcome : Outcome α) : Prop :=
  match outcome with
  | .done a s' => Reaches text s s' ∧ Q a s'
  | .refused s' => Reaches text s s'
  | .exhausted => True

/-- A run may be counted from an earlier state. -/
theorem Outcome.Follows.after {outcome : Outcome β} {s s' : State} (h : outcome.Follows text s' Q)
    (hreach : Reaches text s s') : outcome.Follows text s Q := by
  cases outcome with
  | done b s'' => exact ⟨hreach.trans h.1, h.2⟩
  | refused s'' => exact hreach.trans h
  | exhausted => trivial

theorem Outcome.Follows.imp {outcome : Outcome β} {R : β → State → Prop}
    (h : outcome.Follows text s Q) (hR : ∀ b s', Reaches text s s' → Q b s' → R b s') :
    outcome.Follows text s R := by
  cases outcome with
  | done b s' => exact ⟨h.1, hR b s' h.1 h.2⟩
  | refused s' => exact h
  | exhausted => trivial

namespace Parser

/-- From a state with `F` in which it holds `Γ`, the parser comes to one with `Q`. Where it is
refused, it has only moved on. -/
def Tracks {α : Type} (text : List Char) (lo : Nat) (F : State → Prop) (Γ : List Node)
    (p : Parser α) (Q : α → State → Prop) : Prop :=
  ∀ (c : Context) (s : State), c.markup = false → s.On text → F s → Owned text lo s Γ →
    (p c s).Follows text s Q

/-- The parser starts with empty hands and leaves what it read. -/
def Lays (text : List Char) (p : Parser α) : Prop :=
  ∀ lo, Tracks text lo (fun _ => True) [] p (Leaves text lo [])

/-- The parser only looks. -/
def IsRead {α : Type} (p : Parser α) : Prop :=
  ∀ c s, ∃ a, p c s = .done a s

/-! ## Rules for every parser -/

/-- **What a parser reads is apart from what was held before.** -/
theorem Lays.frame {p : Parser α} (hp : Lays text p) : Tracks text lo F Γ p (Leaves text lo Γ) := by
  intro c s hc hs _ hΓ
  have hlow := hp lo c s hc hs trivial (.nil hΓ.le)
  have hhere := hp s.reading.token.span.start c s hc hs trivial (.nil (Nat.le_refl _))
  cases hrun : p c s with
  | done a s' =>
    rw [hrun] at hlow hhere
    obtain ⟨hreach, hbegins, hends, -⟩ := hlow
    obtain ⟨-, -, -, howned⟩ := hhere
    rw [List.append_nil] at howned
    exact ⟨hreach, hbegins, hends, hΓ.frame hs hreach howned⟩
  | refused s' =>
    rw [hrun] at hlow
    exact hlow
  | exhausted => trivial

/-- What a run that ends well has read. -/
theorem Lays.done {p : Parser α} (hp : Lays text p) {c : Context} {s s' : State} {a : α}
    (hc : c.markup = false) (hs : s.On text) (hrun : p c s = .done a s') :
    Reaches text s s' ∧ begins text s.reading.token.span.start a ∧ ends text s' a
      ∧ Owned text s.reading.token.span.start s' (nodes a) := by
  have h := hp s.reading.token.span.start c s hc hs trivial (.nil (Nat.le_refl _))
  rw [hrun] at h
  obtain ⟨hreach, hbegins, hends, howned⟩ := h
  rw [List.append_nil] at howned
  exact ⟨hreach, hbegins, hends, howned⟩

/-- What survives moving on is still known behind a parser. -/
theorem Lays.keep {p : Parser α} (hp : Lays text p) {P : State → Prop}
    (hP : ∀ s s', F s → Reaches text s s' → P s') :
    Tracks text lo F Γ p (fun a s => Leaves text lo Γ a s ∧ P s) := by
  intro c s hc hs hF hΓ
  refine (hp.frame c s hc hs hF hΓ).imp fun a s' hreach h => ?_
  exact ⟨h, hP s s' hF hreach⟩

namespace Tracks

variable {p : Parser α} {k : α → Parser β}

/-- One parser after the other, with all that the first one establishes. -/
theorem bindPost {α : Type} {p : Parser α} {k : α → Parser β} {R : α → State → Prop}
    (hp : Tracks text lo F Γ p R) (hk : ∀ a, Tracks text lo (R a) [] (k a) Q) :
    Tracks text lo F Γ (p >>= k) Q := by
  intro c s hc hs hF hΓ
  have hfirst := hp c s hc hs hF hΓ
  change ((p.andThen k) c s).Follows text s Q
  unfold andThen
  cases hrun : p c s with
  | done a s' =>
    rw [hrun] at hfirst
    obtain ⟨hreach, hR⟩ := hfirst
    exact (hk a c s' hc hreach.on hR (.nil (Nat.le_trans hΓ.le hreach.start_le))).after hreach
  | refused s' =>
    rw [hrun] at hfirst
    exact hfirst
  | exhausted => trivial

/-- What is known of the state and what is held may be traded for each other. -/
theorem conseq {α : Type} {p : Parser α} {R : α → State → Prop} {F' : State → Prop}
    (hp : Tracks text lo F' Γ' p R)
    (h : ∀ s, s.On text → F s → Owned text lo s Γ → F' s ∧ Owned text lo s Γ') :
    Tracks text lo F Γ p R :=
  fun c s hc hs hF hΓ => hp c s hc hs (h s hs hF hΓ).1 (h s hs hF hΓ).2

theorem bind (hp : Tracks text lo F Γ p (Leaves text lo Γ'))
    (hk : ∀ a, begins text lo a → Tracks text lo (ends text · a) (nodes a ++ Γ') (k a) Q) :
    Tracks text lo F Γ (p >>= k) Q :=
  bindPost hp fun a c s hc hs hR _ => hk a hR.1 c s hc hs hR.2.1 hR.2.2

theorem step (hp : Lays text p)
    (hk : ∀ a, begins text lo a → Tracks text lo (ends text · a) (nodes a ++ Γ) (k a) Q) :
    Tracks text lo F Γ (p >>= k) Q :=
  bind hp.frame hk

/-- Looking changes nothing. -/
theorem read {α : Type} {p : Parser α} {k : α → Parser β} (hp : IsRead p)
    (hk : ∀ a, Tracks text lo F Γ (k a) Q) : Tracks text lo F Γ (p >>= k) Q := by
  intro c s hc hs hF hΓ
  obtain ⟨a, ha⟩ := hp c s
  have hsecond := hk a c s hc hs hF hΓ
  change ((p.andThen k) c s).Follows text s Q
  unfold andThen
  rw [ha]
  exact hsecond

/-- Trees may be dropped, and what was known of the state forgotten. -/
theorem shed {p : Parser β} (hp : Tracks text lo (fun _ => True) Γ' p Q) (h : Within Γ' Γ) :
    Tracks text lo F Γ p Q :=
  conseq hp fun _ _ _ hΓ => ⟨trivial, hΓ.within h⟩

/-- The state, remembered. -/
theorem state {k : State → Parser β}
    (hk : ∀ s, s.On text → F s → Tracks text lo (· = s) Γ (k s) Q) :
    Tracks text lo F Γ (Parser.state >>= k) Q :=
  fun c s hc hs hF hΓ => hk s hs hF c s hc hs rfl hΓ

theorem pureBind {α : Type} {a : α} {k : α → Parser β} (hk : Tracks text lo F Γ (k a) Q) :
    Tracks text lo F Γ (Pure.pure a >>= k) Q :=
  hk

theorem give {b : β} (h : ∀ s, F s → Owned text lo s Γ → Q b s) :
    Tracks text lo F Γ (Pure.pure b : Parser β) Q :=
  fun _ s _ hs hF hΓ => ⟨.refl hs, h s hF hΓ⟩

theorem pure {a : α} (hF : ∀ s, F s → ends text s a) (ha : begins text lo a)
    (h : Within (nodes a ++ Γ₀) Γ) :
    Tracks text lo F Γ (Pure.pure a : Parser α) (Leaves text lo Γ₀) :=
  give fun s hs hΓ => ⟨ha, hF s hs, hΓ.within h⟩

theorem refuse : Tracks text lo F Γ (Parser.refuse : Parser β) Q := by
  intro c s hc hs _ hΓ
  unfold Parser.refuse
  change Reaches text s _
  split
  · exact hs.next.2
  · exact .refl hs

theorem exhausted : Tracks text lo F Γ (Parser.exhausted : Parser β) Q :=
  fun _ _ _ _ _ _ => trivial

theorem within {p : Parser β} {change : Context → Context}
    (hchange : ∀ c, (change c).markup = c.markup) (hp : Tracks text lo F Γ p Q) :
    Tracks text lo F Γ (Parser.within change p) Q :=
  fun c s hc hs hF hΓ => hp (change c) s (by rw [hchange, hc]) hs hF hΓ

theorem allowingIn {p : Parser β} (hp : Tracks text lo F Γ p Q) :
    Tracks text lo F Γ (Parser.allowingIn p) Q :=
  within (fun _ => rfl) hp

/-- A node that is no landmark holds what its parts hold. -/
theorem node {kind : Kind} {start : Nat} {parts : List Node} (hkind : kind.isPlain = true)
    (hstart : Starts text lo start) (h : Within (parts ++ Γ₀) Γ) :
    Tracks text lo F Γ (Parser.node kind start parts) (Leaves text lo Γ₀) := by
  intro c s hc hs _ hΓ
  simp only [Kind.isPlain, Bool.and_eq_true, Bool.not_eq_true'] at hkind
  exact ⟨.refl hs, .mk hkind.2 hstart (hΓ.within (.mk hkind.1 h))⟩

/-- A node that is put together without reading. -/
theorem form {kind : Kind} {span : Span} {parts : List Node} (hkind : kind.isPlain = true)
    (hstart : Starts text lo span.start) (h : Within (parts ++ Γ₀) Γ) :
    Tracks text lo F Γ (Pure.pure (.mk kind span parts) : Parser Node) (Leaves text lo Γ₀) := by
  simp only [Kind.isPlain, Bool.and_eq_true, Bool.not_eq_true'] at hkind
  exact .give fun s _ hΓ => .mk hkind.2 hstart (hΓ.within (.mk hkind.1 h))

/-- A node that is no landmark, with `Γ'` left beside it. -/
theorem bindNode (Γ' : List Node) {kind : Kind} {start : Nat} {parts : List Node}
    {k : Node → Parser β} (hkind : kind.isPlain = true) (hstart : Starts text lo start)
    (h : Within (parts ++ Γ') Γ)
    (hk : ∀ n, begins text lo n → Tracks text lo (ends text · n) (n :: Γ') (k n) Q) :
    Tracks text lo F Γ (Parser.node kind start parts >>= k) Q :=
  bind (node hkind hstart h) hk

/-- The token that is looked at starts behind what is held. -/
theorem token {k : Token → Parser β}
    (hk : ∀ t : Token, Starts text lo t.span.start → Tracks text lo F Γ (k t) Q) :
    Tracks text lo F Γ (Parser.token >>= k) Q := by
  intro c s hc hs hF hΓ
  refine hk s.reading.token ⟨hΓ.le, ?_⟩ c s hc hs hF hΓ
  exact Nat.le_trans hs.start_le hs.from_here.le_byteLength

theorem position {k : Nat → Parser β}
    (hk : ∀ start, Starts text lo start → Tracks text lo F Γ (k start) Q) :
    Tracks text lo F Γ (Parser.position >>= k) Q :=
  token (k := fun t => k t.span.start) fun t ht => hk t.span.start ht

theorem context {k : Context → Parser β}
    (hk : ∀ c : Context, c.markup = false → Tracks text lo F Γ (k c) Q) :
    Tracks text lo F Γ (Parser.context >>= k) Q :=
  fun c s hc hs hF hΓ => hk c hc c s hc hs hF hΓ

theorem ite {condition : Prop} [Decidable condition] {yes no : Parser β}
    (hyes : Tracks text lo F Γ yes Q) (hno : Tracks text lo F Γ no Q) :
    Tracks text lo F Γ (if condition then yes else no) Q := by
  split
  · exact hyes
  · exact hno

theorem readIf {p : Parser Bool} {yes no : Parser β} (hp : IsRead p)
    (hyes : Tracks text lo F Γ yes Q) (hno : Tracks text lo F Γ no Q) :
    Tracks text lo F Γ (p >>= fun b => if b = true then yes else no) Q :=
  read hp fun b => by cases b <;> assumption

end Tracks

/-! ## Looking -/

namespace IsRead

variable {α β : Type}

theorem bind {p : Parser α} {k : α → Parser β} (hp : IsRead p) (hk : ∀ a, IsRead (k a)) :
    IsRead (p >>= k) := by
  intro c s
  obtain ⟨a, ha⟩ := hp c s
  obtain ⟨b, hb⟩ := hk a c s
  refine ⟨b, ?_⟩
  change (p.andThen k) c s = _
  unfold andThen
  rw [ha]
  exact hb

theorem pure (a : α) : IsRead (Pure.pure a : Parser α) := fun _ _ => ⟨a, rfl⟩

theorem token : IsRead Parser.token := fun _ _ => ⟨_, rfl⟩

theorem peek : IsRead Parser.peek := fun _ _ => ⟨_, rfl⟩

theorem context : IsRead Parser.context := fun _ _ => ⟨_, rfl⟩

theorem state : IsRead Parser.state := fun _ _ => ⟨_, rfl⟩

theorem isMark (m : String) : IsRead (Parser.isMark m) := fun _ _ => ⟨_, rfl⟩

theorem isWord (w : String) : IsRead (Parser.isWord w) := fun _ _ => ⟨_, rfl⟩

theorem atEnd : IsRead Parser.atEnd := fun _ _ => ⟨_, rfl⟩

theorem isMarkOrEnd (m : String) : IsRead (Parser.isMarkOrEnd m) := fun _ _ => ⟨_, rfl⟩

theorem isStrict : IsRead Parser.isStrict := fun _ _ => ⟨_, rfl⟩

theorem atSemicolon : IsRead Parser.atSemicolon := fun _ _ => ⟨_, rfl⟩

theorem namesSomething (t : Token) : IsRead (Parser.namesSomething t) := by
  intro c s
  unfold Parser.namesSomething
  split
  · exact ⟨_, rfl⟩
  · exact ⟨_, rfl⟩

theorem notMark (m : String) : IsRead (do return !(← Parser.isMark m)) :=
  (isMark m).bind fun _ => pure _

end IsRead

/-! ## Passing over a token -/

/-- The parser passes over the token it looks at, or stays where it is and says so. -/
def Eats (p : Parser Bool) : Prop :=
  ∀ c s, p c s = .done false s ∨ p c s = .done true s ∨ p c s = .done true s.next

theorem eat_eats (m : String) : Eats (eat m) := by
  intro c s
  by_cases h : (s.reading.token.kind == .mark m) = true
  · exact .inr (.inr (by simp [eat, Bind.bind, andThen, isMark, h]; rfl))
  · exact .inl (by simp [eat, Bind.bind, andThen, isMark, h]; rfl)

theorem eatWord_eats (w : String) : Eats (eatWord w) := by
  intro c s
  by_cases h : (s.reading.token.kind == .word w) = true
  · exact .inr (.inr (by simp [eatWord, Bind.bind, andThen, isWord, h]; rfl))
  · exact .inl (by simp [eatWord, Bind.bind, andThen, isWord, h]; rfl)

theorem eatSemicolon_eats : Eats eatSemicolon := by
  intro c s
  have hrun : eatSemicolon c s = (atSemicolon.andThen fun b =>
      if b = true then ((eat ";").andThen fun _ => Parser.done ()).andThen fun _ => Parser.done true
      else Parser.done false) c s := rfl
  rw [hrun, andThen]
  obtain ⟨b, hb⟩ := IsRead.atSemicolon c s
  rw [hb]
  cases b with
  | false => exact .inl rfl
  | true =>
    simp only [↓reduceIte, andThen]
    rcases eat_eats ";" c s with h | h | h
    · exact .inr (.inl (by rw [h]; rfl))
    · exact .inr (.inl (by rw [h]; rfl))
    · exact .inr (.inr (by rw [h]; rfl))

/-- Behind the token only what survives moving on is known; where it is not there, everything. -/
theorem Tracks.eatIfKeep {p : Parser Bool} {yes no : Parser β} {P : State → Prop} (hp : Eats p)
    (hP : ∀ s s', F s → Reaches text s s' → P s')
    (hyes : Tracks text lo P Γ yes Q) (hno : Tracks text lo F Γ no Q) :
    Tracks text lo F Γ (p >>= fun b => if b = true then yes else no) Q := by
  intro c s hc hs hF hΓ
  change ((p.andThen fun b => if b = true then yes else no) c s).Follows text s Q
  unfold andThen
  rcases hp c s with h | h | h
  · rw [h]
    exact hno c s hc hs hF hΓ
  · rw [h]
    exact hyes c s hc hs (hP s s hF (.refl hs)) hΓ
  · rw [h]
    have hnext := hs.next.2
    exact (hyes c s.next hc hnext.on (hP s _ hF hnext) (hΓ.reaches hnext)).after hnext

theorem Tracks.eatIf {p : Parser Bool} {yes no : Parser β} (hp : Eats p)
    (hyes : Tracks text lo (fun _ => True) Γ yes Q) (hno : Tracks text lo F Γ no Q) :
    Tracks text lo F Γ (p >>= fun b => if b = true then yes else no) Q :=
  .eatIfKeep hp (fun _ _ _ _ => trivial) hyes hno

theorem Eats.lays {p : Parser Bool} (hp : Eats p) : Lays text p := by
  intro lo c s hc hs _ hΓ
  rcases hp c s with h | h | h
  · rw [h]
    exact ⟨.refl hs, trivial, trivial, hΓ⟩
  · rw [h]
    exact ⟨.refl hs, trivial, trivial, hΓ⟩
  · rw [h]
    exact ⟨hs.next.2, trivial, trivial, hΓ.reaches hs.next.2⟩

theorem advance_lays : Lays text advance := by
  intro lo c s hc hs _ hΓ
  exact ⟨hs.next.2, trivial, trivial, hΓ.reaches hs.next.2⟩

theorem leaf_lays {kind : Kind} (hkind : kind.isLandmark = false) : Lays text (leaf kind) := by
  intro lo c s hc hs _ hΓ
  refine ⟨hs.next.2, ⟨⟨hΓ.le, ?_⟩, fun _ => ⟨rfl, hs.start_le_stop⟩⟩, fun _ => ⟨hs.next.1, rfl⟩, ?_⟩
  · exact Nat.le_trans hs.start_le hs.from_here.le_byteLength
  · exact (hΓ.reaches hs.next.2).within (.mk hkind (.refl _))

/-- The token that is looked at, remembered. -/
theorem Tracks.look {k : Token → Parser β}
    (hk : ∀ t : Token, Starts text lo t.span.start → t.span.start ≤ t.span.stop →
      Tracks text lo (·.reading.token = t) Γ (k t) Q) :
    Tracks text lo F Γ (Parser.token >>= k) Q := by
  intro c s hc hs _ hΓ
  refine hk s.reading.token ⟨hΓ.le, ?_⟩ hs.start_le_stop c s hc hs rfl hΓ
  exact Nat.le_trans hs.start_le hs.from_here.le_byteLength

/-- Behind a token that was remembered. -/
theorem Tracks.pass {t : Token} {k : Unit → Parser β}
    (hk : Tracks text lo (fun s => s.Reads text false ∧ t.span.stop = s.lastEnd) Γ (k ()) Q) :
    Tracks text lo (·.reading.token = t) Γ (Parser.advance >>= k) Q := by
  intro c s hc hs ht hΓ
  have hnext := hs.next.2
  exact (hk c s.next hc hnext.on ⟨hs.next.1, by rw [← ht]; rfl⟩ (hΓ.reaches hnext)).after hnext

theorem expect_lays (m : String) : Lays text (expect m) :=
  fun _ => .eatIf (eat_eats m) (.pure (fun _ _ => trivial) trivial (.refl _)) .refuse

theorem expectWord_lays (w : String) : Lays text (expectWord w) :=
  fun _ => .eatIf (eatWord_eats w) (.pure (fun _ _ => trivial) trivial (.refl _)) .refuse

theorem expectSemicolon_lays : Lays text expectSemicolon :=
  fun _ => .eatIf eatSemicolon_eats (.pure (fun _ _ => trivial) trivial (.refl _)) .refuse

theorem enterModule_lays : Lays text enterModule := by
  intro lo c s hc hs _ hΓ
  have hreach : Reaches text s { s with inModule := true } :=
    ⟨hs, Nat.le_refl _, Nat.le_refl _, [], rfl, by simp⟩
  exact ⟨hreach, trivial, trivial, hΓ.reaches hreach⟩

theorem forgive_lays : Lays text forgive := by
  intro lo c s hc hs _ hΓ
  unfold forgive
  split
  · exact ⟨.refl hs, trivial, trivial, hΓ⟩
  · exact .refl hs

theorem identifier_lays (yieldAllowed awaitAllowed : Bool) :
    Lays text (identifier yieldAllowed awaitAllowed) := by
  intro lo
  refine .look fun t ht hle => ?_
  split
  · refine .pass (.context fun c _ => .read .state fun s => .ite ?_ .refuse)
    exact .pure (fun s hs _ => hs) ⟨ht, fun _ => ⟨rfl, hle⟩⟩ (.mk rfl (.refl _))
  · exact .refuse

theorem bindingIdentifier_lays (lexical : Bool) : Lays text (bindingIdentifier lexical) := by
  intro lo
  refine .read (.isWord _) fun isLet => .ite .refuse ?_
  refine .step (identifier_lays _ _) fun name hname => .context fun c _ => ?_
  exact .ite .refuse (.ite .refuse (.pure (fun _ h => h) hname (.refl _)))

theorem optionalBindingIdentifier_lays (lexical : Bool) :
    Lays text (optionalBindingIdentifier lexical) := by
  intro lo
  refine .read .token fun t => .readIf (.namesSomething t) ?_ ?_
  · refine .step (bindingIdentifier_lays _) fun name _ => ?_
    exact .pure (fun _ _ => trivial) trivial (.refl _)
  · exact .pure (fun _ _ => trivial) trivial (.refl _)

theorem anyName_lays : Lays text anyName := by
  intro lo
  refine .read .token fun t => ?_
  split
  · exact leaf_lays rfl lo
  · exact .refuse

theorem privateName_lays : Lays text privateName := by
  intro lo
  refine .position fun start hstart => .read .token fun t => ?_
  refine .step (expect_lays _) fun _ _ => .read .token fun t' => ?_
  split
  · exact .ite (.step advance_lays fun _ _ => .node rfl hstart (.refl _)) .refuse
  · exact .refuse

/-! ## Repetitions and second chances -/

theorem within_lays {p : Parser α} {change : Context → Context}
    (hchange : ∀ c, (change c).markup = c.markup) (hp : Lays text p) :
    Lays text (within change p) :=
  fun lo => .within hchange (hp lo)

theorem allowingIn_lays {p : Parser α} (hp : Lays text p) : Lays text (allowingIn p) :=
  within_lays (fun _ => rfl) hp

theorem discard_lays {p : Parser α} (hp : Lays text p) : Lays text (discard p) := by
  intro lo
  have hdiscard : discard p = p >>= fun _ => (pure () : Parser Unit) := rfl
  rw [hdiscard]
  exact .step hp fun a _ => .pure (fun _ _ => trivial) trivial fun x => by simp [nodes]

theorem nil_lays : Lays text (pure [] : Parser (List Node)) :=
  fun _ => .pure (fun _ _ => trivial) trivial (.refl _)

/-- One node as a list. -/
theorem singleton_lays {p : Parser Node} (hp : Lays text p) : Lays text (do return [← p]) :=
  fun _ => .step hp fun _ _ => .pure (fun _ _ => trivial) trivial (.refl _)

theorem orElse_lays {p handler : Parser α} (hp : Lays text p) (hh : Lays text handler) :
    Lays text (orElse p handler) := by
  intro lo c s hc hs _ hΓ
  have hfirst := hp lo c s hc hs trivial hΓ
  unfold orElse
  cases hrun : p c s with
  | done a s' =>
    rw [hrun] at hfirst
    exact hfirst
  | refused s' =>
    rw [hrun] at hfirst
    exact (hh lo c _ hc hfirst.on trivial (hΓ.reaches hfirst)).after hfirst
  | exhausted => trivial

theorem manyUntil_lays {stop : Parser Bool} {item : Parser (List Node)} (hstop : IsRead stop)
    (hitem : Lays text item) (limit : Nat) : Lays text (manyUntil stop item limit) := by
  induction limit with
  | zero => exact fun _ => .exhausted
  | succ limit ih =>
    intro lo
    refine .readIf hstop (.pure (fun _ _ => trivial) trivial (.refl _)) ?_
    refine .step hitem fun first _ => .step ih fun others _ => ?_
    refine .pure (fun _ _ => trivial) trivial fun x => ?_
    simp only [nodes, occurrences_append]
    omega

end Parser

/-- The recursive part of the grammar lays out what it reads. The operators behind an operand start
with that operand in hand, and with whatever stands around it. -/
structure Grammar.Lays (text : List Char) (g : Grammar) : Prop where
  statement : ∀ declarations, Parser.Lays text (g.parse (.statement declarations))
  assignment : Parser.Lays text (g.parse .assignment)
  unary : Parser.Lays text (g.parse .unary)
  constructed : Parser.Lays text (g.parse .constructed)
  leftHandSide : Parser.Lays text (g.parse .leftHandSide)
  binding : ∀ lexical, Parser.Lays text (g.parse (.binding lexical))
  operators : ∀ {lo : Nat} (Γ : List Node) (floor : Nat) (left : Node), begins text lo left →
    Parser.Tracks text lo (ends text · left) (left :: Γ) (g.parse (.operators floor left))
      (Leaves text lo Γ)

end AmdModules.Script
