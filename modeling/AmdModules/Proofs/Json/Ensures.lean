import AmdModules.Json.Value

/-!
# What reading guarantees

A reader that refuses what it does not want leaves only values with some property. `Ensures` states
this of a reader, and its rules follow the constructs readers are made of: a property of the items
is one of the list, and what every member keeps is kept by the object.
-/

set_option autoImplicit false

namespace AmdModules

namespace Json.Reader

variable {α β σ : Type}

/-! ## Reading all of a text -/

theorem run_eq_error {p : Reader α} {text : List Char} {e : Fault} {s : Cursor}
    (h : p { rest := text } = (.error e, s)) : run p text = .error e := by
  simp only [run, Bind.bind, h]

/-- All of a text is read when the reader comes through and nothing but blank space is left. -/
theorem run_eq_ok_iff {p : Reader α} {text : List Char} {a : α} :
    run p text = .ok a ↔ ∃ s, p { rest := text } = (.ok a, s) ∧ (peekToken s).1 = .ok none := by
  rcases hp : p { rest := text } with ⟨result, s⟩
  cases result with
  | error e =>
    rw [run_eq_error hp]
    simp
  | ok b =>
    obtain ⟨next?, s', hnext⟩ : ∃ next? s', peekToken s = (.ok next?, s') := ⟨_, _, rfl⟩
    simp only [run, Bind.bind, hp, hnext]
    cases next? with
    | none =>
      constructor
      · intro h
        cases h
        exact ⟨s, rfl, by rw [hnext]⟩
      · rintro ⟨_, ⟨⟩, -⟩
        rfl
    | some c =>
      constructor
      · intro h
        cases h
      · rintro ⟨_, ⟨⟩, hend⟩
        rw [hnext] at hend
        cases hend

/-! ## Guarantees -/

/-- Whatever the reader reads has the property. -/
def Ensures (p : Reader α) (P : α → Prop) : Prop :=
  ∀ s a s', p s = (.ok a, s') → P a

namespace Ensures

theorem any (p : Reader α) : Ensures p fun _ => True :=
  fun _ _ _ _ => trivial

theorem pure {P : α → Prop} {a : α} (h : P a) : Ensures (Pure.pure a) P := by
  intro s b s' hread
  obtain ⟨hvalue, -⟩ := Prod.mk.inj hread
  exact Except.ok.inj hvalue ▸ h

theorem bind {p : Reader α} {f : α → Reader β} {P : α → Prop} {Q : β → Prop} (hp : Ensures p P)
    (hf : ∀ a, P a → Ensures (f a) Q) : Ensures (p >>= f) Q := by
  intro s b s'' hread
  rcases hfirst : p s with ⟨result, s'⟩
  simp only [Bind.bind, hfirst] at hread
  cases result with
  | ok a => exact hf a (hp s a s' hfirst) s' b s'' hread
  | error e => cases hread

theorem unwanted (P : α → Prop) (message : String) : Ensures (Reader.unwanted message) P := by
  intro s a s' hread
  cases hread

theorem failAt (P : α → Prop) (cause : Cause) : Ensures (Reader.failAt cause) P := by
  intro s a s' hread
  cases hread

theorem failHere (P : α → Prop) (cause : Cause) : Ensures (Reader.failHere cause) P := by
  intro s a s' hread
  cases hread

/-- A mismatch is always refused, whatever stands there. -/
theorem mismatch (P : α → Prop) (wanted : String) : Ensures (Reader.mismatch wanted) P := by
  refine bind (any _) fun c _ => ?_
  split
  · exact bind (any _) fun _ _ => bind (any _) fun _ _ => unwanted P _
  · exact bind (any _) fun _ _ => bind (any _) fun _ _ => unwanted P _
  · exact bind (any _) fun _ _ => bind (any _) fun _ _ => unwanted P _
  · exact bind (any _) fun _ _ => bind (any _) fun _ _ => unwanted P _
  · exact bind (any _) fun _ _ => bind (any _) fun _ _ => unwanted P _
  · exact bind (any _) fun _ _ => unwanted P _
  · exact bind (any _) fun _ _ => unwanted P _
  · split
    · exact bind (any _) fun _ _ => unwanted P _
    · exact bind (any _) fun _ _ => unwanted P _

theorem located {p : Reader α} {P : α → Prop} (h : Ensures p P) : Ensures (Reader.located p) P := by
  intro s a s' hread
  unfold Reader.located at hread
  split at hread
  · cases hread
  · exact h s a s' hread

theorem closedBy {finish : Reader Unit} {body : Reader α} {P : α → Prop} (h : Ensures body P) :
    Ensures (Reader.closedBy finish body) P := by
  intro s a s' hread
  unfold Reader.closedBy at hread
  split at hread
  · rename_i a' s'' hbody
    split at hread
    · obtain ⟨hvalue, -⟩ := Prod.mk.inj hread
      exact Except.ok.inj hvalue ▸ h s a' s'' hbody
    · cases hread
  · cases hread

/-- What every member keeps is kept by the object. -/
theorem members {member : σ → String → Reader σ} {P : σ → Prop}
    (hmember : ∀ state key, P state → Ensures (member state key) P) (fuel : Nat) (first : Bool)
    {state : σ} (h : P state) : Ensures (Reader.members member fuel first state) P := by
  induction fuel generalizing first state with
  | zero => exact pure h
  | succ fuel ih =>
    refine bind (any _) fun key? _ => ?_
    cases key? with
    | none => exact pure h
    | some key => exact bind (hmember state key h) fun next hnext => ih false hnext

/-- What every item has, all items of a list have. -/
theorem items {item : Reader α} {P : α → Prop} (hitem : Ensures item P) (fuel : Nat)
    (first : Bool) : Ensures (Reader.items item fuel first) fun as => ∀ a ∈ as, P a := by
  induction fuel generalizing first with
  | zero => exact pure (by simp)
  | succ fuel ih =>
    have hitems : Ensures (item >>= fun a => Reader.items item fuel false >>= fun as =>
        Pure.pure (a :: as)) fun as => ∀ a ∈ as, P a :=
      bind hitem fun a ha => bind (ih false) fun as has =>
        pure (List.forall_mem_cons.mpr ⟨ha, has⟩)
    refine bind (any _) fun c? _ => ?_
    split
    · exact failHere _ _
    · exact pure (by simp)
    · split
      · exact failAt _ _
      · cases first with
        | true => exact hitems
        | false =>
          refine bind (any _) fun _ _ => bind (any _) fun c? _ => ?_
          split
          · exact bind (failAt (fun _ => False) _) fun _ h => h.elim
          · exact hitems
          · exact bind (failHere (fun _ => False) _) fun _ h => h.elim

theorem objectOf {depth : Nat} {initial : σ} {member : σ → String → Reader σ} {P : σ → Prop}
    (hinitial : P initial) (hmember : ∀ state key, P state → Ensures (member state key) P) :
    Ensures (Reader.objectOf depth initial member) P := by
  unfold Reader.objectOf
  split
  · exact failAt P _
  · exact bind (any _) fun _ _ => closedBy
      (bind (any _) fun fuel _ => members hmember _ _ hinitial)

theorem listOf {depth : Nat} {body : Nat → Reader α} {P : α → Prop}
    (h : ∀ fuel, Ensures (body fuel) P) : Ensures (Reader.listOf depth body) P := by
  unfold Reader.listOf
  split
  · exact failAt P _
  · exact bind (any _) fun _ _ => bind (any _) fun fuel _ => closedBy (h fuel)

theorem run {p : Reader α} {P : α → Prop} (h : Ensures p P) {text : List Char} {a : α}
    (hrun : Reader.run p text = .ok a) : P a := by
  obtain ⟨s, hread, -⟩ := run_eq_ok_iff.mp hrun
  exact h _ a s hread

end Ensures

end Json.Reader

end AmdModules
