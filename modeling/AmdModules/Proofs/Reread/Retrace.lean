import AmdModules.Proofs.Reread.Legible
import AmdModules.Proofs.Reread.Twin

/-!
# Two parsers side by side

`Retraces` follows a parser in the text and another one in the filled text. From twin states, and as
long as what is put in belongs to the result of the first, the second comes to a twin state with a
result that is alike. Only runs that end well are followed: one that is refused has looked ahead to
places that the second parser never comes to.

The rules take a production apart step by step, both readings at once. Trees that are held meanwhile
are the `Γ` of the rules for `Tracks`, and what has to be shown of a result is again that its trees
were held (`Within`).
-/

set_option autoImplicit false

namespace AmdModules.Script

open Text Yields

/-- What it means for two results to be alike. -/
class Mirrors (α : Type) where
  alike : {text : List Char} → Filling text → α → α → Prop
  exists_alike : ∀ {text : List Char} (f : Filling text) (a : α), ∃ a', alike f a a'

open Mirrors

instance : Mirrors Unit where
  alike _ _ _ := True
  exists_alike _ _ := ⟨(), trivial⟩

instance : Mirrors Bool where
  alike _ b b' := b' = b
  exists_alike _ b := ⟨b, rfl⟩

instance : Mirrors Node where
  alike f := f.Alike
  exists_alike f n := ⟨f.mirror n, .mirror n⟩

instance : Mirrors (List Node) where
  alike f := f.AlikeAll
  exists_alike f ns := ⟨f.mirrorAll ns, .mirror ns⟩

instance : Mirrors (Option Node) where
  alike f := Option.Rel f.Alike
  exists_alike f n := by
    cases n with
    | none => exact ⟨none, .none⟩
    | some n => exact ⟨some (f.mirror n), .some (.mirror n)⟩

instance : Mirrors (Kind × List Node) where
  alike f n n' := n'.1 = n.1 ∧ f.AlikeAll n.2 n'.2
  exists_alike f n := ⟨(n.1, f.mirrorAll n.2), rfl, .mirror n.2⟩

variable {text : List Char}

/-- The surroundings of the second parser: where an arrow may start has moved, and more may be
forgiven. -/
def Context.Twin (f : Filling text) (c c' : Context) : Prop :=
  ∃ arrow forgiving, c' = { c with arrowAt := arrow, forgiving := forgiving }
    ∧ Option.Rel f.Moved c.arrowAt arrow

/-- The surroundings of the first parser: nothing is forgiven, and no markup is read. -/
structure Context.Plain (text : List Char) (c : Context) : Prop where
  markup : c.markup = false
  forgiving : c.forgiving = false
  arrowAt : ∀ place, c.arrowAt = some place → ∃ cs, From text place cs

/-- A change of the surroundings that keeps what the twins may differ in. -/
structure Harmless (change : Context → Context) : Prop where
  markup : ∀ c, (change c).markup = c.markup := by exact fun _ => rfl
  forgiving : ∀ c, (change c).forgiving = c.forgiving := by exact fun _ => rfl
  arrowAt : ∀ c, (change c).arrowAt = c.arrowAt := by exact fun _ => rfl
  twin : ∀ (c : Context) (arrow : Option Nat) (forgiving : Bool),
    change { c with arrowAt := arrow, forgiving := forgiving }
      = { change c with arrowAt := arrow, forgiving := forgiving } := by exact fun _ _ _ => rfl

/-- The second parser sees what the first one sees. -/
structure State.Seems (s s' : State) : Prop where
  kind : s'.reading.token.kind = s.reading.token.kind
  onNewLine : s'.reading.token.onNewLine = s.reading.token.onNewLine
  inModule : s'.inModule = s.inModule

theorem State.Twin.seems {f : Filling text} {s s' : State} (h : s.Twin f s') (hclear : s.Clear f) :
    s.Seems s' :=
  ⟨(h.reading hclear).token.kind, (h.reading hclear).token.onNewLine, h.inModule⟩

namespace Parser

section

variable {α β : Type} {f : Filling text} {s s' t : State} {c : Context}

/-- From states with `F` in which the trees `Γ` are held, the second parser does in the filled text
what the first one does in the text. -/
def Retraces [Yields α] [Mirrors α] (f : Filling text) (F : State → Prop) (Γ : List Node)
    (p p' : Parser α) : Prop :=
  ∀ (c : Context) (s t : State) (a : α), c.Plain text → s.On text → F s →
    s.Holds text Γ → p c s = .done a t →
    Moves text Γ s (nodes a) t
      ∧ ∀ (c' : Context) (s' : State), c.Twin f c' → s.Twin f s' → s.Calm f →
        Covers f s t (nodes a) → ∃ a' t', p' c' s' = .done a' t' ∧ alike f a a' ∧ t.Twin f t'

/-- The same with empty hands. -/
def Rereads [Yields α] [Mirrors α] (f : Filling text) (p p' : Parser α) : Prop :=
  Retraces f (fun _ => True) [] p p'

/-- The second parser finds what the first one finds, and both only look. -/
def Echoes (p p' : Parser α) : Prop :=
  ∀ (c : Context) (arrow : Option Nat) (forgiving : Bool) (s s' : State), s.Seems s' →
    ∃ a, p c s = .done a s ∧ p' { c with arrowAt := arrow, forgiving := forgiving } s' = .done a s'

theorem bind_eq_done {p : Parser α} {k : α → Parser β} {a : α} {b : β} (h : p c s = .done a s')
    (h' : k a c s' = .done b t) : (p >>= k) c s = .done b t := by
  change (p.andThen k) c s = _
  rw [andThen, h]
  exact h'

theorem bind_assoc {γ : Type} (p : Parser α) (k : α → Parser β) (l : β → Parser γ) :
    (p >>= k) >>= l = p >>= fun a => k a >>= l := by
  funext c s
  change ((p.andThen k).andThen l) c s = (p.andThen fun a => (k a).andThen l) c s
  simp only [andThen]
  cases p c s <;> rfl

/-- Where nothing is forgiven the parser does not go on. -/
theorem forgive_never {k : Unit → Parser α} (hf : c.forgiving = false) (a : α) :
    (forgive >>= k) c s ≠ .done a t := by
  have hrun : (forgive >>= k) c s = .refused s := by
    simp only [Bind.bind, andThen, forgive, hf, Bool.false_eq_true, ↓reduceIte]
  rw [hrun]
  exact fun h => by cases h

end

/-! ## Looking -/

namespace Echoes

variable {α β : Type}

theorem bind {p p' : Parser α} {k k' : α → Parser β} (hp : Echoes p p')
    (hk : ∀ a, Echoes (k a) (k' a)) : Echoes (p >>= k) (p' >>= k') := by
  intro c arrow forgiving s s' hs
  obtain ⟨a, ha, ha'⟩ := hp c arrow forgiving s s' hs
  obtain ⟨b, hb, hb'⟩ := hk a c arrow forgiving s s' hs
  exact ⟨b, bind_eq_done ha hb, bind_eq_done ha' hb'⟩

theorem pure (a : α) : Echoes (Pure.pure a : Parser α) (Pure.pure a) :=
  fun _ _ _ _ _ _ => ⟨a, rfl, rfl⟩

theorem isMark (m : String) : Echoes (Parser.isMark m) (Parser.isMark m) :=
  fun _ _ _ _ _ hs => ⟨_, rfl, by rw [Parser.isMark, hs.kind]⟩

theorem isWord (w : String) : Echoes (Parser.isWord w) (Parser.isWord w) :=
  fun _ _ _ _ _ hs => ⟨_, rfl, by rw [Parser.isWord, hs.kind]⟩

theorem atEnd : Echoes Parser.atEnd Parser.atEnd :=
  fun _ _ _ _ _ hs => ⟨_, rfl, by rw [Parser.atEnd, hs.kind]⟩

theorem isMarkOrEnd (m : String) : Echoes (Parser.isMarkOrEnd m) (Parser.isMarkOrEnd m) :=
  fun _ _ _ _ _ hs => ⟨_, rfl, by rw [Parser.isMarkOrEnd, hs.kind]⟩

theorem isStrict : Echoes Parser.isStrict Parser.isStrict :=
  fun _ _ _ _ _ hs => ⟨_, rfl, by rw [Parser.isStrict, hs.inModule]⟩

theorem notMark (m : String) :
    Echoes (do return !(← Parser.isMark m)) (do return !(← Parser.isMark m)) :=
  (isMark m).bind fun _ => pure _

theorem namesSomething {kind : TokenKind} {span span' : Span} {onNewLine onNewLine' : Bool} :
    Echoes (Parser.namesSomething ⟨kind, span, onNewLine⟩)
      (Parser.namesSomething ⟨kind, span', onNewLine'⟩) := by
  intro c arrow forgiving s s' hs
  unfold Parser.namesSomething
  cases kind
  case word name => exact ⟨_, rfl, by rw [hs.inModule]; rfl⟩
  all_goals exact ⟨_, rfl, rfl⟩

theorem atSemicolon : Echoes Parser.atSemicolon Parser.atSemicolon := by
  intro c arrow forgiving s s' hs
  refine ⟨_, rfl, ?_⟩
  change Outcome.done (s'.reading.token.kind == .mark ";" || s'.reading.token.kind == .mark "\x7d"
    || s'.reading.token.kind == .ending || s'.reading.token.onNewLine) s' = _
  rw [hs.kind, hs.onNewLine]

end Echoes

variable {α β : Type} [Yields α] [Mirrors α] [Yields β] [Mirrors β] {f : Filling text}
  {F F' : State → Prop} {Γ Γ' : List Node} {s s' t : State} {c c' : Context}

/-! ## Rules for every parser -/

/-- What a run with empty hands has read. -/
theorem Rereads.moves {p p' : Parser α} {a : α} (hp : Rereads f p p') (hc : c.Plain text)
    (hs : s.On text) (hrun : p c s = .done a t) : Moves text [] s (nodes a) t :=
  (hp c s t a hc hs trivial (.nil s) hrun).1

/-- What is read again. -/
theorem Rereads.twin {p p' : Parser α} {a : α} (hp : Rereads f p p') (hc : c.Plain text)
    (hs : s.On text) (hrun : p c s = .done a t) (hc' : c.Twin f c') (hs' : s.Twin f s')
    (hcalm : s.Calm f) (hcovers : Covers f s t (nodes a)) :
    ∃ a' t', p' c' s' = .done a' t' ∧ alike f a a' ∧ t.Twin f t' :=
  (hp c s t a hc hs trivial (.nil s) hrun).2 c' s' hc' hs' hcalm hcovers

/-- What is held meanwhile does not matter. -/
theorem Rereads.frame {p p' : Parser α} (hp : Rereads f p p') : Retraces f F Γ p p' := by
  intro c s t a hc hs _ _ hrun
  obtain ⟨hmoves, htwin⟩ := hp c s t a hc hs trivial (.nil s) hrun
  exact ⟨hmoves.mono (by simp), htwin⟩

namespace Retraces

variable {p p' : Parser α} {k k' : α → Parser β}

/-- One parser after the other, with something known of the state in between. -/
theorem bindPost {R : α → State → Prop} (hp : Retraces f F Γ p p')
    (hR : ∀ c s t a, c.Plain text → s.On text → F s → p c s = .done a t → R a t)
    (hk : ∀ a a', alike f a a' → Retraces f (R a) (nodes a ++ Γ) (k a) (k' a')) :
    Retraces f F Γ (p >>= k) (p' >>= k') := by
  intro c s u b hc hs hF hΓ hrun
  obtain ⟨a, t, hfirst, hsecond⟩ := bind_done hrun
  obtain ⟨hmoves, htwin⟩ := hp c s t a hc hs hF hΓ hfirst
  have hRt := hR c s t a hc hs hF hfirst
  have hrest {a' : α} (ha : alike f a a') :=
    hk a a' ha c t u b hc hmoves.reaches.on hRt (hmoves.holds hΓ) hsecond
  obtain ⟨_, hany⟩ := exists_alike f a
  have hmoves' := (hrest hany).1
  refine ⟨hmoves.trans hmoves', fun c' s' hc' hs' hcalm hcovers => ?_⟩
  have hleft := hmoves'.covers_left hs hΓ hcovers
  obtain ⟨a', t', hrun', ha, ht⟩ := htwin c' s' hc' hs' hcalm hleft
  obtain ⟨b', u', hrun'', hb, hu⟩ := (hrest ha).2 c' t' hc' ht
    (hmoves.calm hΓ hcalm hleft) (hmoves.covers_right hcovers)
  exact ⟨b', u', bind_eq_done hrun' hrun'', hb, hu⟩

theorem bind (hp : Retraces f F Γ p p')
    (hk : ∀ a a', alike f a a' → Retraces f (fun _ => True) (nodes a ++ Γ) (k a) (k' a')) :
    Retraces f F Γ (p >>= k) (p' >>= k') :=
  .bindPost hp (fun _ _ _ _ _ _ _ _ => trivial) hk

theorem step (hp : Rereads f p p')
    (hk : ∀ a a', alike f a a' → Retraces f (fun _ => True) (nodes a ++ Γ) (k a) (k' a')) :
    Retraces f F Γ (p >>= k) (p' >>= k') :=
  .bind hp.frame hk

/-- One parser after the other, with what is known of the end of its result. -/
theorem bindEnds (hp : Retraces f F Γ p p') (hlays : Lays text p)
    (hk : ∀ a a', alike f a a' → Retraces f (ends text · a) (nodes a ++ Γ) (k a) (k' a')) :
    Retraces f F Γ (p >>= k) (p' >>= k') :=
  .bindPost hp (fun _ _ _ _ hc hs _ hrun => (hlays.done hc.markup hs hrun).2.2.1) hk

/-- More may be known of the state, and more held. -/
theorem conseq (hp : Retraces f F' Γ' p p') (hF : ∀ s, s.On text → F s → F' s)
    (h : Within Γ' Γ) : Retraces f F Γ p p' := by
  intro c s t a hc hs hFs hΓ hrun
  have hheld : s.Holds text Γ' := fun x hx => hΓ x (h.sites hx)
  obtain ⟨hmoves, htwin⟩ := hp c s t a hc hs (hF s hs hFs) hheld hrun
  exact ⟨hmoves.mono h.sites, htwin⟩

theorem shed (hp : Retraces f (fun _ => True) Γ' p p') (h : Within Γ' Γ) : Retraces f F Γ p p' :=
  .conseq hp (fun _ _ _ => trivial) h

/-- A parser that never ends well has nothing to retrace. -/
theorem never (h : ∀ (c : Context) (s t : State) (a : α), c.forgiving = false → F s →
    p c s ≠ .done a t) : Retraces f F Γ p p' :=
  fun c s t a hc _ hF _ hrun => absurd hrun (h c s t a hc.forgiving hF)

theorem refuse : Retraces f F Γ (Parser.refuse : Parser α) p' :=
  .never fun c _ _ _ _ _ => refuse_ne_done c

theorem exhausted : Retraces f F Γ (Parser.exhausted : Parser α) p' :=
  .never fun _ _ _ _ _ _ h => by cases h

/-- A run that reads nothing. -/
theorem still {a a' : α} (h : Within (nodes a) Γ) (ha : alike f a a')
    (hp : ∀ c s, p c s = .done a s) (hp' : ∀ c s, p' c s = .done a' s) : Retraces f F Γ p p' := by
  intro c s t b _ hs _ _ hrun
  rw [hp] at hrun
  cases hrun
  exact ⟨.stay hs h.sites, fun c' s' _ hs' _ _ => ⟨a', s', hp' c' s', ha, hs'⟩⟩

theorem pure {a a' : α} (ha : alike f a a') (h : Within (nodes a) Γ) :
    Retraces f F Γ (Pure.pure a) (Pure.pure a') :=
  .still h ha (fun _ _ => rfl) fun _ _ => rfl

theorem pureBind {α : Type} {a a' : α} {k k' : α → Parser β} (hk : Retraces f F Γ (k a) (k' a')) :
    Retraces f F Γ (Pure.pure a >>= k) (Pure.pure a' >>= k') :=
  hk

section

variable {kind : Kind} {start start' : Nat} {span span' : Span} {parts parts' : List Node}

/-- Nodes with alike parts, calls apart. -/
theorem node (hkind : kind ≠ .call) (hparts : f.AlikeAll parts parts') (h : Within parts Γ) :
    Retraces f F Γ (Parser.node kind start parts) (Parser.node kind start' parts') := by
  intro c s t n _ hs _ _ hrun
  cases hrun
  refine ⟨.stay hs ?_, fun c' s' _ hs' _ _ => ⟨_, s', rfl, .mk hkind _ _ hparts, hs'⟩⟩
  rw [nodes_node, sites_mk hkind]
  exact h.sites

/-- Nodes that are put together without reading. -/
theorem form (hkind : kind ≠ .call) (hparts : f.AlikeAll parts parts') (h : Within parts Γ) :
    Retraces f F Γ (Pure.pure (.mk kind span parts) : Parser Node)
      (Pure.pure (.mk kind span' parts')) := by
  intro c s t n _ hs _ _ hrun
  cases hrun
  refine ⟨.stay hs ?_, fun c' s' _ hs' _ _ => ⟨_, s', rfl, .mk hkind _ _ hparts, hs'⟩⟩
  rw [nodes_node, sites_mk hkind]
  exact h.sites

/-- A node, held like its parts. -/
theorem bindNode {k k' : Node → Parser β} (hkind : kind ≠ .call) (hparts : f.AlikeAll parts parts')
    (h : Within parts Γ)
    (hk : ∀ n n', f.Alike n n' → Retraces f (fun _ => True) (n :: Γ) (k n) (k' n')) :
    Retraces f F Γ (Parser.node kind start parts >>= k) (Parser.node kind start' parts' >>= k') :=
  .bind (.node hkind hparts h) hk

end

theorem ite {condition : Prop} [Decidable condition] {yes yes' no no' : Parser α}
    (hyes : Retraces f F Γ yes yes') (hno : Retraces f F Γ no no') :
    Retraces f F Γ (if condition then yes else no) (if condition then yes' else no') := by
  split
  · exact hyes
  · exact hno

/-- Whether something holds of the state or not. -/
theorem cases (P : State → Prop) (hyes : Retraces f (fun s => F s ∧ P s) Γ p p')
    (hno : Retraces f (fun s => F s ∧ ¬P s) Γ p p') : Retraces f F Γ p p' := by
  intro c s t a hc hs hF
  by_cases hP : P s
  · exact hyes c s t a hc hs ⟨hF, hP⟩
  · exact hno c s t a hc hs ⟨hF, hP⟩

/-! ## Rules for looking -/

/-- The token that is looked at, remembered. -/
theorem look {k k' : Token → Parser α}
    (hk : ∀ (kind : TokenKind) (span span' : Span) (onNewLine : Bool),
      f.Moved span.start span'.start → (kind.reach = 1 → f.Moved span.stop span'.stop) →
      Retraces f (·.reading.token = ⟨kind, span, onNewLine⟩) Γ (k ⟨kind, span, onNewLine⟩)
        (k' ⟨kind, span', onNewLine⟩)) :
    Retraces f F Γ (Parser.token >>= k) (Parser.token >>= k') := by
  intro c s t a hc hs _ hΓ hrun
  have hrest (span' : Span) (hstart : f.Moved s.reading.token.span.start span'.start) (hstop) :=
    hk s.reading.token.kind s.reading.token.span span' s.reading.token.onNewLine hstart hstop
      c s t a hc hs rfl hΓ hrun
  obtain ⟨cs, hcs⟩ := hs.from_start
  obtain ⟨start', hstart'⟩ := f.exists_moved hcs
  obtain ⟨stop', hstop'⟩ := f.exists_moved hs.from_rest
  refine ⟨(hrest ⟨start', stop'⟩ hstart' fun _ => hstop').1, fun c' s' hc' hs' hcalm hcovers => ?_⟩
  obtain ⟨hkind, hnew, hstart, hstop⟩ := (hs'.reading (hcalm.clear hs)).token
  obtain ⟨a', t', hrun', ha, ht⟩ := (hrest _ hstart hstop).2 c' s' hc' hs' hcalm hcovers
  refine ⟨a', t', ?_, ha, ht⟩
  rw [← hkind, ← hnew] at hrun'
  exact hrun'

/-- The token that is looked at. -/
theorem token {k k' : Token → Parser α}
    (hk : ∀ (kind : TokenKind) (span span' : Span) (onNewLine : Bool),
      f.Moved span.start span'.start →
      Retraces f (fun _ => True) Γ (k ⟨kind, span, onNewLine⟩) (k' ⟨kind, span', onNewLine⟩)) :
    Retraces f F Γ (Parser.token >>= k) (Parser.token >>= k') :=
  .look fun kind span span' onNewLine hstart _ =>
    .conseq (hk kind span span' onNewLine hstart) (fun _ _ _ => trivial) (.refl _)

/-- Places are forgotten. -/
theorem position {k k' : Nat → Parser α}
    (hk : ∀ start start', Retraces f F Γ (k start) (k' start')) :
    Retraces f F Γ (Parser.position >>= k) (Parser.position >>= k') := by
  intro c s t a hc hs hF hΓ hrun
  have hrest (start' : Nat) := hk _ start' c s t a hc hs hF hΓ hrun
  exact ⟨(hrest 0).1, fun c' s' => (hrest s'.reading.token.span.start).2 c' s'⟩

/-- The surroundings differ only in where an arrow may start, and in what is forgiven. -/
theorem context {k k' : Context → Parser α}
    (hk : ∀ (c : Context) (arrow : Option Nat) (forgiving : Bool), c.Plain text →
      Option.Rel f.Moved c.arrowAt arrow →
      Retraces f F Γ (k c) (k' { c with arrowAt := arrow, forgiving := forgiving })) :
    Retraces f F Γ (Parser.context >>= k) (Parser.context >>= k') := by
  intro c s t a hc hs hF hΓ hrun
  have hrest (arrow : Option Nat) (forgiving : Bool)
      (harrow : Option.Rel f.Moved c.arrowAt arrow) :=
    hk c arrow forgiving hc harrow c s t a hc hs hF hΓ hrun
  obtain ⟨arrow, harrow⟩ : ∃ arrow, Option.Rel f.Moved c.arrowAt arrow := by
    cases hplace : c.arrowAt with
    | none => exact ⟨none, .none⟩
    | some place =>
      obtain ⟨cs, hcs⟩ := hc.arrowAt place hplace
      obtain ⟨place', hmoved⟩ := f.exists_moved hcs
      exact ⟨some place', .some hmoved⟩
  refine ⟨(hrest arrow true harrow).1, fun c' s' hc' hs' hcalm hcovers => ?_⟩
  obtain ⟨arrow', forgiving, rfl, harrow'⟩ := id hc'
  exact (hrest arrow' forgiving harrow').2 _ s' hc' hs' hcalm hcovers

/-- Whether the text is a module is all that is asked of a state. -/
theorem state {k k' : State → Parser α}
    (hk : ∀ s s' : State, s'.inModule = s.inModule → Retraces f F Γ (k s) (k' s')) :
    Retraces f F Γ (Parser.state >>= k) (Parser.state >>= k') := by
  intro c s t a hc hs hF hΓ hrun
  have hrest (s' : State) (h : s'.inModule = s.inModule) := hk s s' h c s t a hc hs hF hΓ hrun
  exact ⟨(hrest s rfl).1, fun c' s' hc' hs' => (hrest s' hs'.inModule).2 c' s' hc' hs'⟩

/-- The token behind a word or a semicolon, remembered. -/
theorem peekThen {k k' : Token → Parser α}
    (hF : ∀ s, F s → s.reading.token.kind.looksAhead = true)
    (hk : ∀ (kind : TokenKind) (span span' : Span) (onNewLine : Bool),
      Retraces f (fun s => F s ∧ s.next.reading.token = ⟨kind, span, onNewLine⟩) Γ
        (k ⟨kind, span, onNewLine⟩) (k' ⟨kind, span', onNewLine⟩)) :
    Retraces f F Γ (Parser.peek >>= k) (Parser.peek >>= k') := by
  intro c s t a hc hs hF' hΓ hrun
  have hrest (span' : Span) := hk s.next.reading.token.kind s.next.reading.token.span span'
    s.next.reading.token.onNewLine c s t a hc hs ⟨hF', rfl⟩ hΓ hrun
  refine ⟨(hrest ⟨0, 0⟩).1, fun c' s' hc' hs' hcalm hcovers => ?_⟩
  have hlook := hF s hF'
  have hnext : s.next.Twin f s'.next := by
    refine hs'.next hs (hcalm.clear hs) fun hreach => ?_
    rw [TokenKind.reach_of_looksAhead hlook] at hreach
    exact absurd hreach (by decide)
  obtain ⟨hkind, hnew, -⟩ := (hnext.reading (hcalm.clear_next hs hlook)).token
  obtain ⟨a', t', hrun', ha, ht⟩ := (hrest s'.next.reading.token.span).2 c' s' hc' hs' hcalm hcovers
  refine ⟨a', t', ?_, ha, ht⟩
  rw [← hkind, ← hnew] at hrun'
  exact hrun'

/-- The token behind a word or a semicolon. -/
theorem peek {k k' : Token → Parser α}
    (hF : ∀ s, F s → s.reading.token.kind.looksAhead = true)
    (hk : ∀ (kind : TokenKind) (span span' : Span) (onNewLine : Bool),
      Retraces f F Γ (k ⟨kind, span, onNewLine⟩) (k' ⟨kind, span', onNewLine⟩)) :
    Retraces f F Γ (Parser.peek >>= k) (Parser.peek >>= k') :=
  .peekThen hF fun kind span span' new =>
    .conseq (hk kind span span' new) (fun _ _ h => h.1) (.refl _)

/-- The token behind the one being looked at, where nothing is asked of it. -/
theorem peekAny {k k' : Token → Parser α}
    (hk : ∀ t t', Retraces f F Γ (k t) (k' t')) :
    Retraces f F Γ (Parser.peek >>= k) (Parser.peek >>= k') := by
  intro c s t a hc hs hF hΓ hrun
  have hrest (t' : Token) := hk _ t' c s t a hc hs hF hΓ hrun
  exact ⟨(hrest default).1, fun c' s' => (hrest s'.next.reading.token).2 c' s'⟩

section

variable {γ : Type} {q q' : Parser γ} {k k' : γ → Parser α}

/-- Looking changes nothing, and tells something of the state. -/
theorem readThen (hq : Echoes q q')
    (hk : ∀ b, Retraces f (fun s => F s ∧ ∃ c, q c s = .done b s) Γ (k b) (k' b)) :
    Retraces f F Γ (q >>= k) (q' >>= k') := by
  intro c s t a hc hs hF hΓ hrun
  obtain ⟨b, hb, -⟩ := hq c c.arrowAt c.forgiving s s ⟨rfl, rfl, rfl⟩
  obtain ⟨b', s₁, hq₁, hrun⟩ := bind_done hrun
  rw [hb] at hq₁
  cases hq₁
  obtain ⟨hmoves, htwin⟩ := hk b c s t a hc hs ⟨hF, c, hb⟩ hΓ hrun
  refine ⟨hmoves, fun c' s' hc' hs' hcalm hcovers => ?_⟩
  obtain ⟨a', t', hrun', hat⟩ := htwin c' s' hc' hs' hcalm hcovers
  obtain ⟨arrow, forgiving, rfl, -⟩ := hc'
  obtain ⟨b', hb', hq'⟩ := hq c arrow forgiving s s' (hs'.seems (hcalm.clear hs))
  rw [hb] at hb'
  cases hb'
  exact ⟨a', t', bind_eq_done hq' hrun', hat⟩

theorem read (hq : Echoes q q') (hk : ∀ b, Retraces f F Γ (k b) (k' b)) :
    Retraces f F Γ (q >>= k) (q' >>= k') :=
  .readThen hq fun b => .conseq (hk b) (fun _ _ h => h.1) (.refl _)

end

section

variable {yes yes' no no' : Parser α}

theorem readIf {q q' : Parser Bool} (hq : Echoes q q') (hyes : Retraces f F Γ yes yes')
    (hno : Retraces f F Γ no no') :
    Retraces f F Γ (q >>= fun b => if b = true then yes else no)
      (q' >>= fun b => if b = true then yes' else no') :=
  .read hq fun b => by cases b <;> assumption

/-- Behind a word that was looked for the parser stands at that word. -/
theorem ifWord {w : String}
    (hyes : Retraces f (·.reading.token.kind = .word w) Γ yes yes') (hno : Retraces f F Γ no no') :
    Retraces f F Γ (isWord w >>= fun b => if b = true then yes else no)
      (isWord w >>= fun b => if b = true then yes' else no') := by
  refine .readThen (.isWord w) fun b => ?_
  cases b with
  | true =>
    refine .conseq hyes (fun s _ h => ?_) (.refl _)
    obtain ⟨-, c, hword⟩ := h
    simpa [isWord] using hword
  | false => exact .conseq hno (fun _ _ h => h.1) (.refl _)

/-- Behind a mark that was looked for the parser stands at that mark. -/
theorem ifMark {m : String}
    (hyes : Retraces f (·.reading.token.kind = .mark m) Γ yes yes') (hno : Retraces f F Γ no no') :
    Retraces f F Γ (isMark m >>= fun b => if b = true then yes else no)
      (isMark m >>= fun b => if b = true then yes' else no') := by
  refine .readThen (.isMark m) fun b => ?_
  cases b with
  | true =>
    refine .conseq hyes (fun s _ h => ?_) (.refl _)
    obtain ⟨-, c, hmark⟩ := h
    simpa [isMark] using hmark
  | false => exact .conseq hno (fun _ _ h => h.1) (.refl _)

/-! ## Other surroundings, second chances and repetitions -/

theorem withinTwin {p p' : Parser α} {change change' : Context → Context}
    (hplain : ∀ c, c.Plain text → (change c).Plain text)
    (htwin : ∀ c c' : Context, c.Twin f c' → (change c).Twin f (change' c'))
    (hp : Retraces f F Γ p p') :
    Retraces f F Γ (Parser.within change p) (Parser.within change' p') := by
  intro c s t a hc hs hF hΓ hrun
  obtain ⟨hmoves, hrest⟩ := hp (change c) s t a (hplain c hc) hs hF hΓ hrun
  exact ⟨hmoves, fun c' s' hc' => hrest (change' c') s' (htwin c c' hc')⟩

theorem within {p p' : Parser α} {change : Context → Context} (hchange : Harmless change)
    (hp : Retraces f F Γ p p') :
    Retraces f F Γ (Parser.within change p) (Parser.within change p') := by
  refine .withinTwin (fun c hc => ?_) (fun c c' hc' => ?_) hp
  · refine ⟨by rw [hchange.markup, hc.markup], by rw [hchange.forgiving, hc.forgiving], ?_⟩
    rw [hchange.arrowAt]
    exact hc.arrowAt
  · obtain ⟨arrow, forgiving, rfl, harrow⟩ := hc'
    refine ⟨arrow, forgiving, hchange.twin c arrow forgiving, ?_⟩
    rw [hchange.arrowAt]
    exact harrow

theorem allowingIn {p p' : Parser α} (hp : Retraces f F Γ p p') :
    Retraces f F Γ (Parser.allowingIn p) (Parser.allowingIn p') :=
  within { } hp

/-- A second chance that is never taken. -/
theorem orElse {p p' handler handler' : Parser α} (hp : Retraces f F Γ p p')
    (hnever : ∀ (c : Context) (s t : State) (a : α), c.forgiving = false →
      handler c s ≠ .done a t) :
    Retraces f F Γ (Parser.orElse p handler) (Parser.orElse p' handler') := by
  intro c s t a hc hs hF hΓ hrun
  have hfirst : p c s = .done a t := by
    unfold Parser.orElse at hrun
    split at hrun
    · exact absurd hrun (hnever c _ t a hc.forgiving)
    · exact hrun
  obtain ⟨hmoves, hrest⟩ := hp c s t a hc hs hF hΓ hfirst
  refine ⟨hmoves, fun c' s' hc' hs' hcalm hcovers => ?_⟩
  obtain ⟨a', t', hrun', hat⟩ := hrest c' s' hc' hs' hcalm hcovers
  exact ⟨a', t', by simp only [Parser.orElse, hrun'], hat⟩

end

end Retraces

theorem within_rereads {p p' : Parser α} {change : Context → Context} (hchange : Harmless change)
    (hp : Rereads f p p') : Rereads f (within change p) (within change p') :=
  .within hchange hp

theorem allowingIn_rereads {p p' : Parser α} (hp : Rereads f p p') :
    Rereads f (allowingIn p) (allowingIn p') :=
  .allowingIn hp

theorem discard_rereads {p p' : Parser α} (hp : Rereads f p p') :
    Rereads f (discard p) (discard p') := by
  have hdiscard (p : Parser α) : discard p = p >>= fun _ => (pure () : Parser Unit) := rfl
  rw [hdiscard, hdiscard]
  exact .step hp fun _ _ _ => .pure trivial (.nil _)

theorem nil_rereads : Rereads f (pure [] : Parser (List Node)) (pure []) :=
  .pure .nil (.refl _)

/-- One node as a list. -/
theorem singleton_rereads {p p' : Parser Node} (hp : Rereads f p p') :
    Rereads f (do return [← p]) (do return [← p']) :=
  .step hp fun _ _ hn => .pure (.singleton hn) (.refl _)

theorem manyUntil_rereads {stop stop' : Parser Bool} {item item' : Parser (List Node)}
    (hstop : Echoes stop stop') (hitem : Rereads f item item') {limit limit' : Nat}
    (hle : limit ≤ limit') :
    Rereads f (manyUntil stop item limit) (manyUntil stop' item' limit') := by
  induction limit generalizing limit' with
  | zero => exact .exhausted
  | succ limit ih =>
    obtain ⟨limit', rfl⟩ : ∃ n, limit' = n + 1 := ⟨limit' - 1, by omega⟩
    refine .readIf hstop (.pure .nil (.refl _)) ?_
    refine .step hitem fun first first' hfirst => ?_
    refine .step (ih (Nat.le_of_succ_le_succ hle)) fun others others' hothers => ?_
    exact .pure (.append hfirst hothers) (by grind)

/-! ## Steps -/

/-- What a parser that passes over at most one token does. -/
inductive Bite where
  | leaves
  | stays
  | passes

/-- What the parser does depends on the token it looks at, and on nothing else. -/
def Bites (p : Parser Bool) (bite : TokenKind → Bool → Bite) : Prop :=
  ∀ c s, p c s = match bite s.reading.token.kind s.reading.token.onNewLine with
    | .leaves => .done false s
    | .stays => .done true s
    | .passes => .done true s.next

theorem advance_rereads : Rereads f advance advance := by
  intro c s t a _ hs _ _ hrun
  cases hrun
  refine ⟨.next hs, fun c' s' _ hs' hcalm hcovers => ⟨(), s'.next, rfl, trivial, ?_⟩⟩
  exact hs'.next hs (hcalm.clear hs) fun hreach => hcovers.quiet hs hreach

theorem Bites.rereads {p : Parser Bool} {b : TokenKind → Bool → Bite} (hp : Bites p b) :
    Rereads f p p := by
  intro c s t eaten hc hs hF hΓ hrun
  have hseems {c' s' : _} (hs' : s.Twin f s') (hcalm : s.Calm f) :
      p c' s' = match b s.reading.token.kind s.reading.token.onNewLine with
        | .leaves => .done false s'
        | .stays => .done true s'
        | .passes => .done true s'.next := by
    have h := hs'.seems (hcalm.clear hs)
    rw [hp, h.kind, h.onNewLine]
  rw [hp] at hrun
  cases hbite : b s.reading.token.kind s.reading.token.onNewLine <;>
    rw [hbite] at hrun <;> simp only [hbite] at hseems <;> cases hrun
  · exact ⟨.stay hs (by simp [nodes]),
      fun c' s' _ hs' hcalm _ => ⟨_, s', hseems hs' hcalm, rfl, hs'⟩⟩
  · exact ⟨.stay hs (by simp [nodes]),
      fun c' s' _ hs' hcalm _ => ⟨_, s', hseems hs' hcalm, rfl, hs'⟩⟩
  · refine ⟨.next hs, fun c' s' hc' hs' hcalm hcovers => ?_⟩
    obtain ⟨_, t', hrun', -, ht⟩ := (advance_rereads c s s.next () hc hs hF hΓ rfl).2 c' s' hc' hs'
      hcalm hcovers
    cases hrun'
    exact ⟨_, _, hseems hs' hcalm, rfl, ht⟩

theorem eat_rereads (m : String) : Rereads f (eat m) (eat m) := by
  refine Bites.rereads (b := fun kind _ => if kind == .mark m then .passes else .leaves) ?_
  intro c s
  by_cases h : (s.reading.token.kind == .mark m) = true
  · simp [eat, Bind.bind, andThen, isMark, h]
    rfl
  · simp [eat, Bind.bind, andThen, isMark, h]
    rfl

theorem eatWord_rereads (w : String) : Rereads f (eatWord w) (eatWord w) := by
  refine Bites.rereads (b := fun kind _ => if kind == .word w then .passes else .leaves) ?_
  intro c s
  by_cases h : (s.reading.token.kind == .word w) = true
  · simp [eatWord, Bind.bind, andThen, isWord, h]
    rfl
  · simp [eatWord, Bind.bind, andThen, isWord, h]
    rfl

theorem eatSemicolon_rereads : Rereads f eatSemicolon eatSemicolon := by
  refine Bites.rereads (b := fun kind onNewLine =>
    if kind == .mark ";" then .passes
    else if kind == .mark "\x7d" || kind == .ending || onNewLine then .stays else .leaves) ?_
  intro c s
  have hrun : eatSemicolon c s = (if (s.reading.token.kind == .mark ";"
      || s.reading.token.kind == .mark "\x7d" || s.reading.token.kind == .ending
      || s.reading.token.onNewLine) = true then (discard (eat ";") >>= fun _ => pure true)
      else pure false : Parser Bool) c s := rfl
  have hdiscard : discard (eat ";") = eat ";" >>= fun _ => (pure () : Parser Unit) := rfl
  rw [hrun, hdiscard]
  by_cases h : (s.reading.token.kind == .mark ";") = true
  · simp [eat, Bind.bind, andThen, isMark, h]
    rfl
  · simp only [h, Bool.false_or]
    split
    · simp [eat, Bind.bind, andThen, isMark, h]
      rfl
    · rfl

section

variable {p p' : Parser Bool} {yes yes' no no' : Parser α}

theorem Retraces.eatIf (hp : Rereads f p p') (hyes : Retraces f (fun _ => True) Γ yes yes')
    (hno : Retraces f (fun _ => True) Γ no no') :
    Retraces f F Γ (p >>= fun b => if b = true then yes else no)
      (p' >>= fun b => if b = true then yes' else no') := by
  refine .step hp fun b b' hb => ?_
  obtain rfl : b' = b := hb
  cases b' with
  | true => exact hyes
  | false => exact hno

end

theorem expect_rereads (m : String) : Rereads f (expect m) (expect m) :=
  .eatIf (eat_rereads m) (.pure trivial (.nil _)) .refuse

theorem expectWord_rereads (w : String) : Rereads f (expectWord w) (expectWord w) :=
  .eatIf (eatWord_rereads w) (.pure trivial (.nil _)) .refuse

theorem expectSemicolon_rereads : Rereads f expectSemicolon expectSemicolon :=
  .eatIf eatSemicolon_rereads (.pure trivial (.nil _)) .refuse

theorem leaf_rereads {kind : Kind} (hkind : kind ≠ .call) :
    Rereads f (leaf kind) (leaf kind) :=
  .token fun _ _ _ _ _ => .step advance_rereads fun _ _ _ => .form hkind .nil (.nil _)

theorem enterModule_rereads : Rereads f enterModule enterModule := by
  intro c s t a _ hs _ _ hrun
  cases hrun
  have hreach : Reaches text s { s with inModule := true } :=
    ⟨hs, Nat.le_refl _, Nat.le_refl _, [], rfl, by simp⟩
  exact ⟨⟨hreach, Nat.le_refl _, by simp [nodes]⟩,
    fun c' s' _ hs' _ _ => ⟨(), _, rfl, trivial, ⟨hs'.reads, hs'.lastEnd, rfl⟩⟩⟩

/-! ## Names -/

theorem identifier_rereads (yieldAllowed awaitAllowed : Bool) :
    Rereads f (identifier yieldAllowed awaitAllowed) (identifier yieldAllowed awaitAllowed) := by
  refine .token fun kind span span' new _ => ?_
  cases kind
  case word name =>
    refine .step advance_rereads fun _ _ _ => .context fun c arrow forgiving _ _ => ?_
    refine .state fun s s' hmodule => ?_
    dsimp only
    rw [hmodule]
    exact .ite (.form nofun .nil (.nil _)) .refuse
  all_goals exact .refuse

theorem bindingIdentifier_rereads (lexical : Bool) :
    Rereads f (bindingIdentifier lexical) (bindingIdentifier lexical) := by
  refine .read (.isWord _) fun isLet => .ite .refuse ?_
  refine .step (identifier_rereads _ _) fun name name' hname => ?_
  refine .context fun c arrow forgiving _ _ => ?_
  dsimp only
  rw [hname.kind]
  exact .ite .refuse (.ite .refuse (.pure hname (.refl _)))

theorem optionalBindingIdentifier_rereads (lexical : Bool) :
    Rereads f (optionalBindingIdentifier lexical) (optionalBindingIdentifier lexical) := by
  refine .token fun kind span span' new _ => .readIf .namesSomething ?_ nil_rereads.frame
  exact (singleton_rereads (bindingIdentifier_rereads _)).frame

theorem anyName_rereads : Rereads f anyName anyName := by
  refine .token fun kind span span' new _ => ?_
  dsimp only
  split
  · exact (leaf_rereads (by nofun)).frame
  · exact .refuse

/-- A name stands right behind its number sign in both texts, or in neither. -/
theorem privateName_rereads : Rereads f privateName privateName := by
  refine .position fun start start' => .look fun kind span span' new _ hstop => ?_
  by_cases hkind : kind = .mark "#"
  · subst hkind
    refine .step (expect_rereads _) fun _ _ _ => .token fun kind₂ span₂ span₂' new₂ hstart => ?_
    dsimp only
    split
    · have hbehind : (span₂'.start == span'.stop) = (span₂.start == span.stop) := by
        rw [Bool.eq_iff_iff, beq_iff_eq, beq_iff_eq]
        exact hstart.eq_iff (hstop rfl)
      rw [hbehind]
      exact .ite (.step advance_rereads fun _ _ _ => .node nofun .nil (.nil _)) .refuse
    · exact .refuse
  · refine .never fun c s t a _ hs hrun => ?_
    obtain ⟨u, s₁, hexpect, -⟩ := bind_done hrun
    have hmark := (expect_done hexpect).1
    rw [hs] at hmark
    exact hkind hmark

end Parser

/-! ## Expressions do not start with a comma -/

namespace Parser

/-- Where nothing is forgiven, nothing is read at a comma. -/
def Shuns {α : Type} (p : Parser α) : Prop :=
  ∀ (c : Context) (s t : State) (a : α), c.forgiving = false →
    s.reading.token.kind = .mark "," → p c s ≠ .done a t

namespace Shuns

variable {α β : Type} {p : Parser α} {k : α → Parser β}

theorem bind (hp : Shuns p) : Shuns (p >>= k) := by
  intro c s t b hc hs h
  obtain ⟨a, s', hfirst, -⟩ := bind_done h
  exact hp c s s' a hc hs hfirst

theorem read (hp : IsRead p) (hk : ∀ a, Shuns (k a)) : Shuns (p >>= k) := by
  intro c s t b hc hs h
  obtain ⟨a, s', hfirst, h⟩ := bind_done h
  obtain ⟨a', hread⟩ := hp c s
  rw [hread] at hfirst
  cases hfirst
  exact hk a c s t b hc hs h

theorem token {k : Token → Parser β}
    (hk : ∀ (span : Span) (onNewLine : Bool), Shuns (k ⟨.mark ",", span, onNewLine⟩)) :
    Shuns (Parser.token >>= k) := by
  intro c s t b hc hs h
  have hrun : k s.reading.token c s = .done b t := h
  rw [show s.reading.token = ⟨.mark ",", s.reading.token.span, s.reading.token.onNewLine⟩ by
    rw [← hs]] at hrun
  exact hk _ _ c s t b hc hs hrun

theorem position {k : Nat → Parser β} (hk : ∀ start, Shuns (k start)) :
    Shuns (Parser.position >>= k) :=
  .read (fun _ _ => ⟨_, rfl⟩) hk

/-- No word stands there. -/
theorem notWord {w : String} {k : Bool → Parser β} (hk : Shuns (k false)) :
    Shuns (isWord w >>= k) := by
  intro c s t b hc hs h
  have hrun : k (s.reading.token.kind == .word w) c s = .done b t := h
  rw [hs] at hrun
  exact hk c s t b hc hs hrun

theorem notEaten {w : String} {k : Bool → Parser β} (hk : Shuns (k false)) :
    Shuns (eatWord w >>= k) := by
  intro c s t b hc hs h
  refine hk c s t b hc hs ?_
  rw [← h]
  simp [Bind.bind, andThen, eatWord, isWord, hs]
  rfl

theorem refuse : Shuns (Parser.refuse : Parser β) :=
  fun c _ _ _ _ _ => refuse_ne_done c

theorem within {change : Context → Context} (hchange : ∀ c, (change c).forgiving = c.forgiving)
    (hp : Shuns p) : Shuns (Parser.within change p) :=
  fun c s t a hc hs => hp (change c) s t a (by rw [hchange, hc]) hs

theorem orElse {handler : Parser α} (hp : Shuns p)
    (hnever : ∀ (c : Context) (s t : State) (a : α), c.forgiving = false →
      handler c s ≠ .done a t) : Shuns (Parser.orElse p handler) := by
  intro c s t a hc hs h
  unfold Parser.orElse at h
  split at h
  · exact hnever c _ t a hc h
  · exact hp c s t a hc hs h

end Shuns

end Parser

/-! ## Grammars side by side -/

/-- The recursive part of a grammar is retraced by that of another one. -/
structure Grammar.Rereads (f : Filling text) (g g' : Grammar) : Prop where
  lays : g.Lays text
  /-- Repetitions have room for what is put in. -/
  room : g.limit + 4 ≤ g'.limit
  legible : f.Legible g'
  /-- A string in front of a comma or a parenthesis is an argument. -/
  literal : ∀ {c : Context} {s t : State} {value : String} {n : Node},
    s.reading.token.kind = .string value →
    (s.next.reading.token.kind = .mark "," ∨ s.next.reading.token.kind = .mark ")") →
    Parser.element g c s = .done n t →
    n = .mk (.string value) s.reading.token.span [] ∧ t = s.next
  /-- No expression starts with a comma. -/
  shunsAssignment : Parser.Shuns (g.parse .assignment)
  shunsUnary : Parser.Shuns (g.parse .unary)
  statement : ∀ declarations,
    Parser.Rereads f (g.parse (.statement declarations)) (g'.parse (.statement declarations))
  assignment : Parser.Rereads f (g.parse .assignment) (g'.parse .assignment)
  unary : Parser.Rereads f (g.parse .unary) (g'.parse .unary)
  constructed : Parser.Rereads f (g.parse .constructed) (g'.parse .constructed)
  leftHandSide : Parser.Rereads f (g.parse .leftHandSide) (g'.parse .leftHandSide)
  binding : ∀ lexical, Parser.Rereads f (g.parse (.binding lexical)) (g'.parse (.binding lexical))
  operators : ∀ {Γ : List Node} {left left' : Node} (floor : Nat), f.Alike left left' →
    Within [left] Γ → Parser.Retraces f (fun _ => True) Γ (g.parse (.operators floor left))
      (g'.parse (.operators floor left'))

theorem Grammar.Rereads.limit {f : Filling text} {g g' : Grammar} (h : g.Rereads f g') :
    g.limit ≤ g'.limit :=
  Nat.le_trans (Nat.le_add_right _ _) h.room

end AmdModules.Script
