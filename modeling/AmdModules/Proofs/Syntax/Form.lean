import AmdModules.Proofs.Layout.State
import AmdModules.Script.Parser.Member

/-!
# The form of a tree

A tree has one shape for every part of a script, so nothing in its type says that a statement stands
only where the grammar puts one. `Node.Formed` says it: each part of a node has a `Role`, and
`Kind.takes` is the table of the roles that may stand in a node of a given kind. Most kinds take
expressions and the like only; statements, bodies and the members of classes and objects stand in a
few kinds each.

`Parser.Gives` is what a production can give, whatever it reads. The rules below follow the
combinators, so that a production is taken apart the way it is written.
-/

set_option autoImplicit false

namespace AmdModules.Script

/-- What a part is for the node it stands in. -/
inductive Role where
  /-- A whole program. -/
  | program
  /-- An import or export. -/
  | item
  | statement
  /-- A case of a `switch`. -/
  | clause
  /-- A `catch`. -/
  | handler
  /-- Statements in braces that are no statement. -/
  | body
  /-- A constructor or static block of a class. -/
  | member
  /-- A getter or setter of an object literal. -/
  | accessor
  /-- Everything else: expressions, patterns, names and parts of them. -/
  | plain
deriving DecidableEq, Repr

def Kind.role (kind : Kind) : Role :=
  match kind with
  | .script | .module => .program
  | .importDeclaration | .exportDeclaration | .exportDefault | .exportNames | .exportAll => .item
  | .switchCase | .defaultCase => .clause
  | .catchClause => .handler
  | .body => .body
  | .constructor | .staticBlock => .member
  | .getter | .setter => .accessor
  | kind => if kind.isStatement then .statement else .plain

/-- Whether a part of the given role may stand in a node of this kind. -/
def Kind.takes (kind : Kind) : Role → Bool
  | .plain => kind.role != .program
  | .program => false
  | .item => kind.role == .program
  | .statement =>
    kind.role == .program || kind.role == .statement || kind.role == .clause || kind == .body
      || kind == .staticBlock
  | .clause => kind == .switchStatement
  | .handler => kind == .tryStatement
  | .body =>
    match kind with
    | .function _ _ | .arrow _ | .getter | .setter | .constructor | .tryStatement
    | .catchClause => true
    | _ => false
  | .member => kind == .classDefinition
  | .accessor => kind == .object

namespace Kind

theorem isStatement_iff {kind : Kind} : kind.isStatement = true ↔ kind.role = .statement := by
  cases kind <;> simp [isStatement, role]

theorem role_of_isScope {kind : Kind} (h : kind.isScope = true) : kind.role = .plain := by
  cases kind <;> simp_all [isScope, role, isStatement]

/-- Programs, imports and exports are no statements and open no scope. -/
theorem counts_nothing {kind : Kind} (h : kind.role ≠ .statement) (h' : kind.role ≠ .plain) :
    kind.isStatement = false ∧ kind.isScope = false :=
  ⟨by simpa using mt isStatement_iff.mp h, by simpa using mt role_of_isScope h'⟩

theorem role_eq_accessor {kind : Kind} (h : kind.role = .accessor) :
    kind = .getter ∨ kind = .setter := by
  cases kind <;> simp_all [role, isStatement]

/-- A program holds imports, exports and statements. -/
theorem takes_of_program {kind : Kind} {r : Role} (hkind : kind.role = .program)
    (h : kind.takes r = true) : r = .item ∨ r = .statement := by
  obtain rfl | rfl : kind = .script ∨ kind = .module := by
    cases kind <;> simp_all [role, isStatement]
  all_goals cases r <;> simp_all [takes, role]

theorem takes_statement {kind : Kind} (h : kind.takes .statement = true) :
    kind.role = .program ∨ kind.isStatement = true ∨ kind.role = .clause ∨ kind = .body
      ∨ kind = .staticBlock := by
  simp only [takes, Bool.or_eq_true, beq_iff_eq] at h
  rw [isStatement_iff]
  tauto

theorem takes_body {kind : Kind} (h : kind.takes .body = true) :
    kind.isScope = true ∨ kind.isStatement = true ∨ kind.role = .accessor
      ∨ kind = .constructor ∨ kind = .catchClause := by
  simp only [takes] at h
  split at h <;> simp_all [isScope, isStatement, role]

/-- Cases, handlers and members of classes stand in a statement or a class. -/
theorem counted_of_takes {kind : Kind} {r : Role} (hr : r = .clause ∨ r = .handler ∨ r = .member)
    (h : kind.takes r = true) : kind.isStatement = true ∨ kind.isScope = true := by
  rcases hr with rfl | rfl | rfl
  · obtain rfl : kind = .switchStatement := by simpa [takes] using h
    exact .inl rfl
  · obtain rfl : kind = .tryStatement := by simpa [takes] using h
    exact .inl rfl
  · obtain rfl : kind = .classDefinition := by simpa [takes] using h
    exact .inr rfl

end Kind

/-- Every part of the tree stands where its role may. -/
def Node.Formed (n : Node) : Prop :=
  ∀ m ∈ n.preorder, ∀ part ∈ m.parts, m.kind.takes part.kind.role = true

/-- A well-formed tree with the given role. -/
structure Node.Is (role : Role) (n : Node) : Prop where
  role_eq : n.kind.role = role
  formed : n.Formed

theorem Node.mem_preorderAll_iff {m : Node} {ns : List Node} :
    m ∈ Node.preorderAll ns ↔ ∃ n ∈ ns, m ∈ n.preorder := by
  induction ns with
  | nil => simp [preorderAll]
  | cons n ns ih => simp [preorderAll, ih]

theorem Node.formed_mk {kind : Kind} {span : Span} {parts : List Node} :
    (Node.mk kind span parts).Formed ↔
      ∀ part ∈ parts, kind.takes part.kind.role = true ∧ part.Formed := by
  simp only [Formed, preorder, List.mem_cons, mem_preorderAll_iff, forall_eq_or_imp]
  constructor
  · rintro ⟨hroot, hbelow⟩ part hpart
    exact ⟨hroot part hpart, fun m hm => hbelow m ⟨part, hpart, hm⟩⟩
  · intro h
    refine ⟨fun part hpart => (h part hpart).1, ?_⟩
    rintro m ⟨part, hpart, hm⟩
    exact (h part hpart).2 m hm

theorem Node.Formed.part {n part : Node} (h : n.Formed) (hpart : part ∈ n.parts) :
    n.kind.takes part.kind.role = true ∧ part.Formed := by
  obtain ⟨kind, span, parts⟩ := n
  exact Node.formed_mk.mp h part hpart

section

variable {kind : Kind} {span : Span} {parts : List Node} {r p q : Role}

/-- A node whose parts have one of two roles that it takes. -/
theorem Node.Is.of (hkind : kind.role = r) (hp : kind.takes p = true) (hq : kind.takes q = true)
    (hparts : ∀ part ∈ parts, part.Is p ∨ part.Is q) :
    (Node.mk kind span parts).Is r := by
  refine ⟨hkind, Node.formed_mk.mpr fun part hpart => ?_⟩
  rcases hparts part hpart with h | h
  · exact ⟨by rw [h.role_eq, hp], h.formed⟩
  · exact ⟨by rw [h.role_eq, hq], h.formed⟩

/-- All nodes but programs take plain parts. -/
theorem Kind.takes_plain (hkind : kind.role = r) (hr : r ≠ .program) :
    kind.takes .plain = true := by
  simp [takes, hkind, hr]

theorem Node.Is.ofPlain (hkind : kind.role = .plain) (hparts : ∀ part ∈ parts, part.Is .plain) :
    (Node.mk kind span parts).Is .plain :=
  have htakes := Kind.takes_plain hkind (by decide)
  .of hkind htakes htakes fun part hpart => .inl (hparts part hpart)

/-- The parts of a node that takes no others are plain. -/
theorem Node.Formed.plain_parts (h : (Node.mk kind span parts).Formed)
    (hkind : ∀ r, kind.takes r = true → r = .plain) : ∀ part ∈ parts, part.Is .plain := by
  intro part hpart
  obtain ⟨htakes, hformed⟩ := Node.formed_mk.mp h part hpart
  exact ⟨hkind _ htakes, hformed⟩

end

/-! ## What a parser gives -/

namespace Parser

variable {α β : Type} {P : β → Prop} {R : α → Prop}

/-- Where no import or export may stand and no markup is read, all that the parser gives has
`P`. -/
def Gives {α : Type} (P : α → Prop) (p : Parser α) : Prop :=
  ∀ (c : Context) (s : State), c.markup = false → c.topLevel = false →
    ∀ a s', p c s = .done a s' → P a

namespace Gives

theorem mono {Q : β → Prop} {p : Parser β} (hp : Gives P p) (h : ∀ b, P b → Q b) : Gives Q p :=
  fun c s hc ht b s' hrun => h b (hp c s hc ht b s' hrun)

theorem pure {b : β} (h : P b) : Gives P (Pure.pure b : Parser β) := by
  intro c s _ _ a s' hrun
  cases hrun
  exact h

theorem bind {p : Parser α} {k : α → Parser β} (hp : Gives R p) (hk : ∀ a, R a → Gives P (k a)) :
    Gives P (p >>= k) := by
  intro c s hc ht b s' hrun
  obtain ⟨a, s₁, hfirst, hrest⟩ := bind_done hrun
  exact hk a (hp c s hc ht a s₁ hfirst) c s₁ hc ht b s' hrest

/-- What is read first does not matter. -/
theorem any {p : Parser α} {k : α → Parser β} (hk : ∀ a, Gives P (k a)) : Gives P (p >>= k) :=
  bind (R := fun _ => True) (fun _ _ _ _ _ _ _ => trivial) fun a _ => hk a

theorem context {k : Context → Parser β}
    (hk : ∀ c : Context, c.markup = false → c.topLevel = false → Gives P (k c)) :
    Gives P (Parser.context >>= k) :=
  fun c s hc ht b s' hrun => hk c hc ht c s hc ht b s' hrun

theorem refuse : Gives P (Parser.refuse : Parser β) := by
  intro c s _ _ b s' hrun
  cases hrun

theorem exhausted : Gives P (Parser.exhausted : Parser β) := by
  intro c s _ _ b s' hrun
  cases hrun

theorem ite {condition : Prop} [Decidable condition] {yes no : Parser β} (hyes : Gives P yes)
    (hno : Gives P no) : Gives P (if condition then yes else no) := by
  split
  · exact hyes
  · exact hno

theorem within {p : Parser β} {change : Context → Context} (hp : Gives P p)
    (hmarkup : ∀ c, (change c).markup = c.markup)
    (htop : ∀ c, c.topLevel = false → (change c).topLevel = false) :
    Gives P (Parser.within change p) :=
  fun c s hc ht b s' hrun => hp (change c) s (by rw [hmarkup, hc]) (htop c ht) b s' hrun

theorem allowingIn {p : Parser β} (hp : Gives P p) : Gives P (Parser.allowingIn p) :=
  within hp (fun _ => rfl) fun _ h => h

theorem orElse {p handler : Parser β} (hp : Gives P p) (hh : Gives P handler) :
    Gives P (Parser.orElse p handler) := by
  intro c s hc ht b s' hrun
  unfold Parser.orElse at hrun
  split at hrun
  · exact hh c _ hc ht b s' hrun
  · exact hp c s hc ht b s' hrun

end Gives

/-- All items of a repetition have what one item has. -/
theorem manyUntil_all {P : α → Prop} {stop : Parser Bool} {item : Parser (List α)} {c : Context}
    (hitem : ∀ s as s', item c s = .done as s' → ∀ a ∈ as, P a) (limit : Nat) (s : State)
    {as : List α} {s' : State} (hrun : manyUntil stop item limit c s = .done as s') :
    ∀ a ∈ as, P a := by
  induction limit generalizing s as with
  | zero => cases hrun
  | succ limit ih =>
    obtain ⟨b, s₁, -, hrun⟩ := bind_done hrun
    split at hrun
    · cases hrun
      simp
    · obtain ⟨first, s₂, hfirst, hrun⟩ := bind_done hrun
      obtain ⟨others, s₃, hothers, hrun⟩ := bind_done hrun
      cases hrun
      intro a ha
      rcases List.mem_append.mp ha with ha | ha
      · exact hitem _ _ _ hfirst a ha
      · exact ih _ hothers a ha

theorem Gives.manyUntil {P : α → Prop} {stop : Parser Bool} {item : Parser (List α)}
    (hitem : Gives (∀ a ∈ ·, P a) item) (limit : Nat) :
    Gives (∀ a ∈ ·, P a) (Parser.manyUntil stop item limit) :=
  fun c s hc ht _ _ hrun => manyUntil_all (fun s as s' => hitem c s hc ht as s') limit s hrun

/-- One result as a list. -/
theorem Gives.singleton {p : Parser α} (hp : Gives R p) : Gives (∀ a ∈ ·, R a) (do return [← p]) :=
  .bind hp fun a ha => .pure (by simpa using ha)

theorem Gives.nil : Gives (∀ a ∈ ·, R a) (Pure.pure [] : Parser (List α)) :=
  .pure (by simp)

section

variable {kind : Kind} {start : Nat} {parts : List Node} {r p q : Role}

theorem Gives.node (hkind : kind.role = r) (hp : kind.takes p = true) (hq : kind.takes q = true)
    (hparts : ∀ part ∈ parts, part.Is p ∨ part.Is q) :
    Gives (·.Is r) (Parser.node kind start parts) := by
  intro c s _ _ n s' hrun
  cases hrun
  exact .of hkind hp hq hparts

theorem Gives.plainNode (hkind : kind.role = .plain) (hparts : ∀ part ∈ parts, part.Is .plain) :
    Gives (·.Is .plain) (Parser.node kind start parts) := by
  intro c s _ _ n s' hrun
  cases hrun
  exact .ofPlain hkind hparts

end

end Parser

/-- What the recursive part of the grammar gives. -/
structure Grammar.Gives (g : Grammar) : Prop where
  statement : ∀ declarations, Parser.Gives (·.Is .statement) (g.parse (.statement declarations))
  assignment : Parser.Gives (·.Is .plain) (g.parse .assignment)
  unary : Parser.Gives (·.Is .plain) (g.parse .unary)
  constructed : Parser.Gives (·.Is .plain) (g.parse .constructed)
  leftHandSide : Parser.Gives (·.Is .plain) (g.parse .leftHandSide)
  binding : ∀ lexical, Parser.Gives (·.Is .plain) (g.parse (.binding lexical))
  operators : ∀ (floor : Nat) {left : Node}, left.Is .plain →
    Parser.Gives (·.Is .plain) (g.parse (.operators floor left))

/-! ## Names -/

namespace Parser

theorem leaf_gives {kind : Kind} (hkind : kind.role = .plain) : Gives (·.Is .plain) (leaf kind) :=
  .any fun _ => .any fun _ => .pure (.ofPlain hkind (by simp))

theorem identifier_gives (yieldAllowed awaitAllowed : Bool) :
    Gives (·.Is .plain) (identifier yieldAllowed awaitAllowed) := by
  refine .any fun t => ?_
  split
  · refine .any fun _ => .any fun c => .any fun s => .ite ?_ .refuse
    exact .pure (.ofPlain rfl (by simp))
  · exact .refuse

theorem bindingIdentifier_gives (lexical : Bool) :
    Gives (·.Is .plain) (bindingIdentifier lexical) := by
  refine .any fun isLet => .ite .refuse (.bind (identifier_gives _ _) fun name hname => ?_)
  exact .any fun c => .ite .refuse (.ite .refuse (.pure hname))

theorem optionalBindingIdentifier_gives (lexical : Bool) :
    Gives (∀ n ∈ ·, n.Is .plain) (optionalBindingIdentifier lexical) :=
  .any fun _ => .any fun _ => .ite (.singleton (bindingIdentifier_gives _)) .nil

theorem anyName_gives : Gives (·.Is .plain) anyName := by
  refine .any fun t => ?_
  split
  · exact leaf_gives rfl
  · exact .refuse

theorem privateName_gives : Gives (·.Is .plain) privateName := by
  refine .any fun start => .any fun t => .any fun _ => .any fun t' => ?_
  split
  · exact .ite (.any fun _ => .plainNode rfl (by simp)) .refuse
  · exact .refuse

end Parser

/-! ## Expressions taken as patterns -/

/-- Parts that cannot be bound leave an empty node. -/
theorem Node.Is.invalid (span : Span) : (Node.mk .invalid span []).Is .plain :=
  .ofPlain rfl (by simp)

mutual

theorem asPattern_is {target : Target} (n : Node) {m : Node} (hn : n.Is .plain)
    (h : asPattern target n = some m) : m.Is .plain := by
  match n with
  | .mk kind span parts =>
    -- array and object literals are rebuilt from their parts, and an assignment from its left side;
    -- anything else stays as it is or leaves an empty node
    unfold asPattern at h
    split at h
    · cases h
      exact hn
    · obtain ⟨parts', hparts, hm⟩ := Option.bind_eq_some_iff.mp h
      cases hm
      have hplain := hn.formed.plain_parts (by intro r; cases r <;> decide)
      exact .ofPlain rfl (elementsAsPatterns_is parts hplain hparts)
    · obtain ⟨parts', hparts, hm⟩ := Option.bind_eq_some_iff.mp h
      cases hm
      have hformed : ∀ part ∈ parts, part.Formed := fun part hpart =>
        (Node.formed_mk.mp hn.formed part hpart).2
      exact .ofPlain rfl (propertiesAsPatterns_is parts hformed hparts)
    · cases h
      exact hn
    · cases h
      exact hn
    · cases h
      exact hn
    · split at h
      · cases h
        exact hn
      · obtain ⟨parts', hparts, hm⟩ := Option.bind_eq_some_iff.mp h
        cases hm
        have hplain := hn.formed.plain_parts (by intro r; cases r <;> decide)
        exact .ofPlain rfl (firstAsPattern_is parts hplain hparts)
    · split at h
      · cases h
        exact hn
      · split at h
        · cases h
          exact hn
        · cases h
          exact .invalid span
      · split at h
        · cases h
          exact hn
        · cases h
          exact .invalid span

theorem firstAsPattern_is {target : Target} (ns : List Node) {ms : List Node}
    (hns : ∀ n ∈ ns, n.Is .plain) (h : firstAsPattern target ns = some ms) :
    ∀ m ∈ ms, m.Is .plain := by
  match ns with
  | [] =>
    cases h
    simp
  | n :: ns =>
    obtain ⟨m, hm, hms⟩ := Option.bind_eq_some_iff.mp h
    cases hms
    have hfirst := asPattern_is n (hns n (by simp)) hm
    grind

theorem elementsAsPatterns_is {target : Target} (ns : List Node) {ms : List Node}
    (hns : ∀ n ∈ ns, n.Is .plain) (h : elementsAsPatterns target ns = some ms) :
    ∀ m ∈ ms, m.Is .plain := by
  match ns with
  | [] =>
    cases h
    simp
  | .mk kind span parts :: ns =>
    have hfirst := hns _ List.mem_cons_self
    have hothers : ∀ n ∈ ns, n.Is .plain := fun n hn => hns n (List.mem_cons_of_mem _ hn)
    unfold elementsAsPatterns at h
    split at h
    · split at h
      · obtain ⟨parts', hparts, hms⟩ := Option.bind_eq_some_iff.mp h
        cases hms
        have hplain := hfirst.formed.plain_parts
          (by intro r; cases r <;> decide)
        have hrest := firstAsPattern_is parts hplain hparts
        exact fun m hm => List.mem_singleton.mp hm ▸ .ofPlain rfl hrest
      · exact elementsAsPatterns_is ns hothers h
    · obtain ⟨others, heq, hms⟩ := Option.bind_eq_some_iff.mp h
      cases hms
      have := elementsAsPatterns_is ns hothers heq
      grind
    · obtain ⟨m, hm, h⟩ := Option.bind_eq_some_iff.mp h
      obtain ⟨others, heq, hms⟩ := Option.bind_eq_some_iff.mp h
      cases hms
      have := asPattern_is _ hfirst hm
      have := elementsAsPatterns_is ns hothers heq
      grind

theorem propertiesAsPatterns_is {target : Target} (ns : List Node) {ms : List Node}
    (hns : ∀ n ∈ ns, n.Formed) (h : propertiesAsPatterns target ns = some ms) :
    ∀ m ∈ ms, m.Is .plain := by
  -- an accessor may stand among the properties, so their roles are not known beforehand
  match ns with
  | [] =>
    cases h
    simp
  | .mk kind span parts :: ns =>
    have hfirst := hns _ List.mem_cons_self
    have hothers : ∀ n ∈ ns, n.Formed := fun n hn => hns n (List.mem_cons_of_mem _ hn)
    unfold propertiesAsPatterns at h
    split at h
    · obtain ⟨others, heq, hms⟩ := Option.bind_eq_some_iff.mp h
      cases hms
      have := propertiesAsPatterns_is ns hothers heq
      exact fun m hm => (List.mem_cons.mp hm).elim (fun h => h ▸ ⟨rfl, hfirst⟩) (this m)
    · obtain ⟨others, heq, hms⟩ := Option.bind_eq_some_iff.mp h
      cases hms
      have := propertiesAsPatterns_is ns hothers heq
      exact fun m hm => (List.mem_cons.mp hm).elim (fun h => h ▸ ⟨rfl, hfirst⟩) (this m)
    · obtain ⟨parts', hparts, h⟩ := Option.bind_eq_some_iff.mp h
      obtain ⟨others, heq, hms⟩ := Option.bind_eq_some_iff.mp h
      cases hms
      have hplain := hfirst.plain_parts (by intro r; cases r <;> decide)
      have hvalue := valueAsPattern_is parts hplain hparts
      have := propertiesAsPatterns_is ns hothers heq
      exact fun m hm => (List.mem_cons.mp hm).elim (fun h => h ▸ .ofPlain rfl hvalue) (this m)
    · obtain ⟨parts', hparts, h⟩ := Option.bind_eq_some_iff.mp h
      obtain ⟨others, heq, hms⟩ := Option.bind_eq_some_iff.mp h
      cases hms
      have hplain := hfirst.plain_parts (by intro r; cases r <;> decide)
      have hrest := restAsPattern_is parts hplain hparts
      have := propertiesAsPatterns_is ns hothers heq
      exact fun m hm => (List.mem_cons.mp hm).elim (fun h => h ▸ .ofPlain rfl hrest) (this m)
    · -- accessors and methods are refused
      exact absurd h (by simp)

theorem restAsPattern_is {target : Target} (ns : List Node) {ms : List Node}
    (hns : ∀ n ∈ ns, n.Is .plain) (h : restAsPattern target ns = some ms) :
    ∀ m ∈ ms, m.Is .plain := by
  match ns with
  | [] =>
    cases h
    simp
  | .mk kind span parts :: ns =>
    unfold restAsPattern at h
    split at h
    · cases h
      exact hns
    · cases h
      have := Node.Is.invalid span
      grind
    · obtain ⟨m, hm, hms⟩ := Option.bind_eq_some_iff.mp h
      cases hms
      have := asPattern_is _ (hns _ List.mem_cons_self) hm
      grind

theorem valueAsPattern_is {target : Target} (ns : List Node) {ms : List Node}
    (hns : ∀ n ∈ ns, n.Is .plain) (h : valueAsPattern target ns = some ms) :
    ∀ m ∈ ms, m.Is .plain := by
  match ns with
  | [] =>
    cases h
    simp
  | key :: ns =>
    obtain ⟨others, hothers, hms⟩ := Option.bind_eq_some_iff.mp h
    cases hms
    have := firstAsPattern_is ns (fun n hn => hns n (List.mem_cons_of_mem _ hn)) hothers
    grind

end

end AmdModules.Script
