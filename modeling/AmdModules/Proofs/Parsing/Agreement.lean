import AmdModules.Module.Analyze

/-!
# Operations that agree

The passes over a module see the parser only through a `Service`. Two services that answer alike,
whatever they keep in their states, therefore lead every pass to the same result. `Traced.Agree R`
says this of two operations: started in states related by `R` they end in the same value and in
related states. What they report may differ, since one of them may have had less to do.

The relation is carried through the monad once; each pass is then its own text read again with
`Agree` in place of the bind.
-/

set_option autoImplicit false

namespace AmdModules

variable {σ τ α β : Type} {R : σ → τ → Prop}

/-- From related states, the same value and related states. -/
def Traced.Agree (R : σ → τ → Prop) (p : Traced σ α) (q : Traced τ α) : Prop :=
  ∀ s t, R s t → (p s).value = (q t).value ∧ R (p s).state (q t).state

/-- Two services that answer every request alike. -/
def Service.Agree (R : σ → τ → Prop) (a : Service σ) (b : Service τ) : Prop :=
  ∀ request, Traced.Agree R (a request) (b request)

namespace Traced.Agree

theorem pure (a : α) : Agree R (Pure.pure a : Traced σ α) (Pure.pure a : Traced τ α) :=
  fun _ _ h => ⟨rfl, h⟩

theorem report (e : Event) : Agree R (Traced.report e) (Traced.report e) :=
  fun _ _ h => ⟨rfl, h⟩

theorem bind {p : Traced σ α} {q : Traced τ α} {f : α → Traced σ β} {g : α → Traced τ β}
    (hp : Agree R p q) (hf : ∀ a, Agree R (f a) (g a)) : Agree R (p >>= f) (q >>= g) := by
  intro s t h
  obtain ⟨hv, hs⟩ := hp s t h
  have hstep := hf (p s).value _ _ hs
  rw [show (p >>= f) s = { f (p s).value (p s).state with
      events := (p s).events ++ (f (p s).value (p s).state).events } from rfl,
    show (q >>= g) t = { g (q t).value (q t).state with
      events := (q t).events ++ (g (q t).value (q t).state).events } from rfl, ← hv]
  exact hstep

theorem forM_report (events : List Event) :
    Agree R (events.forM Traced.report) (events.forM Traced.report) := by
  induction events with
  | nil => exact pure ()
  | cons e events ih => exact bind (report e) fun _ => ih

end Traced.Agree

open Traced (Agree)

variable {a : Service σ} {b : Service τ}

theorem Normalize.textAt_agree (h : Service.Agree R a b) (profile : Profile) (name : String)
    (specifier : Url) (text : List Char) :
    Agree R (Normalize.textAt a profile name specifier text)
      (Normalize.textAt b profile name specifier text) := by
  unfold Normalize.textAt
  split
  · exact .pure _
  · refine .bind (h _) fun answer => ?_
    cases answer with
    | error e => exact .pure _
    | ok source =>
      refine .bind (.forM_report _) fun _ => ?_
      cases Normalize.apply profile name source.text source.program with
      | ok text => exact .pure _
      | error e => exact .pure _

namespace Module

theorem normalize_agree (h : Service.Agree R a b) (profile : Profile) (m : Module) :
    Agree R (m.normalize a profile) (m.normalize b profile) := by
  unfold normalize
  refine .bind (Normalize.textAt_agree h profile m.name m.specifier m.content) fun result => ?_
  cases result with
  | ok content => exact .pure _
  | error e => exact .pure _

theorem findDependencies_agree (h : Service.Agree R a b) (profile : Profile) (m : Module) :
    Agree R (m.findDependencies a profile) (m.findDependencies b profile) := by
  unfold findDependencies
  dsimp only
  split
  · exact .bind (.report _) fun _ => .pure _
  · split
    · exact .bind (.report _) fun _ => .pure _
    · refine .bind (h _) fun answer => ?_
      cases answer with
      | ok source => exact .pure _
      | error e => exact .pure _

theorem collect_agree (h : Service.Agree R a b) (profile : Profile) (m : Module) :
    Agree R (m.collect a profile) (m.collect b profile) := by
  unfold collect
  refine .bind (findDependencies_agree h profile m) fun result => ?_
  cases result with
  | ok found => exact .pure _
  | error e => exact .pure _

theorem normalizeAndCollect_agree (h : Service.Agree R a b) (profile : Profile) (m : Module) :
    Agree R (m.normalizeAndCollect a profile) (m.normalizeAndCollect b profile) := by
  unfold normalizeAndCollect
  refine .bind (normalize_agree h profile m) fun first => ?_
  obtain ⟨outcome, m⟩ := first
  cases outcome with
  | error e => exact .pure _
  | ok _ =>
    refine .bind (collect_agree h profile m) fun second => ?_
    obtain ⟨outcome, m⟩ := second
    cases outcome with
    | error e => exact .pure _
    | ok _ => exact .pure _

end Module

end AmdModules
