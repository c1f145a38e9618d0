import AmdModules.Proofs.Dependencies.Walk
import AmdModules.Proofs.Parsing.Agreement

/-!
# The life of a module

A module is normalized, searched for dependencies, analyzed and edited, in any order, while the
profile may change in between. Each pass asks a service of its own, of which nothing is assumed: it
may refuse what it accepted before, and it may answer with a tree that does not belong to the text.

One lemma says for each pass all that it can do to a module (`normalize_cases`, `collect_cases`,
`analyze_cases`). What an action keeps is read off these (`ModuleAction.run_extends`), and what a
whole life keeps by induction (`ModuleAction.runAll_extends`).
-/

set_option autoImplicit false

namespace AmdModules

variable {σ τ α β : Type}

theorem Traced.bind_value (p : Traced σ α) (f : α → Traced σ β) (s : σ) :
    ((p >>= f) s).value = (f (p s).value (p s).state).value :=
  rfl

/-! ## What a pass does to a module -/

/-- Normalizing asks at most once, so it ends alike from states in which two services answer
alike. -/
theorem Normalize.textAt_value_eq {a : Service σ} {b : Service τ} {s : σ} {t : τ}
    (h : ∀ request, (a request s).value = (b request t).value) (profile : Profile) (name : String)
    (specifier : Url) (text : List Char) :
    (Normalize.textAt a profile name specifier text s).value
      = (Normalize.textAt b profile name specifier text t).value := by
  unfold Normalize.textAt
  split
  · rfl
  · rw [Traced.bind_value, Traced.bind_value, ← h]
    cases (a ⟨specifier, text, .javaScript⟩ s).value with
    | error e => rfl
    | ok source =>
      simp only [Traced.bind_value]
      cases Normalize.apply profile name source.text source.program with
      | ok text => rfl
      | error e => rfl

namespace Module

variable (service : Service σ) (profile : Profile) (m : Module) (s : σ)

/-- Normalizing gives a module another text, or leaves it as it was. -/
theorem normalize_cases :
    (∃ content, (m.normalize service profile s).value = (.ok (), { m with content }))
      ∨ ∃ e, (m.normalize service profile s).value = (.error e, m) := by
  unfold normalize
  rw [Traced.bind_value]
  cases (Normalize.textAt service profile m.name m.specifier m.content s).value with
  | ok content => exact .inl ⟨content, rfl⟩
  | error e => exact .inr ⟨e, rfl⟩

/-- Collecting adds dependencies, or leaves the module as it was. -/
theorem collect_cases :
    (∃ found, (m.collect service profile s).value
        = (.ok (), { m with dependencies := Dependencies.addAll m.dependencies found }))
      ∨ ∃ e, (m.collect service profile s).value = (.error e, m) := by
  unfold collect
  rw [Traced.bind_value]
  cases (m.findDependencies service profile s).value with
  | ok found => exact .inl ⟨found, rfl⟩
  | error e => exact .inr ⟨e, rfl⟩

/-- Normalizing and then collecting can fail twice; the second time the text has been normalized. -/
theorem normalizeAndCollect_cases :
    (∃ content found, (m.normalizeAndCollect service profile s).value
        = (.ok (), { m with content, dependencies := Dependencies.addAll m.dependencies found }))
      ∨ (∃ e, (m.normalizeAndCollect service profile s).value = (.error (.normalize m.name e), m))
      ∨ ∃ content e, (m.normalize service profile s).value = (.ok (), { m with content })
        ∧ (m.normalizeAndCollect service profile s).value
          = (.error (.collect m.name e), { m with content }) := by
  unfold normalizeAndCollect
  rw [Traced.bind_value]
  rcases m.normalize_cases service profile s with ⟨content, hnormalize⟩ | ⟨e, hnormalize⟩
  · rw [hnormalize]
    dsimp only
    rw [Traced.bind_value]
    rcases collect_cases service profile { m with content } (m.normalize service profile s).state
      with ⟨found, hcollect⟩ | ⟨e, hcollect⟩
    · rw [hcollect]
      exact .inl ⟨content, found, rfl⟩
    · rw [hcollect]
      exact .inr (.inr ⟨content, e, rfl, rfl⟩)
  · rw [hnormalize]
    exact .inr (.inl ⟨e, rfl⟩)

/-- A store that is still empty does not change how normalizing ends. -/
theorem normalize_capturing :
    (m.normalize service.capturing profile ([], s)).value
      = (m.normalize service profile s).value := by
  unfold normalize
  rw [Traced.bind_value, Traced.bind_value, Normalize.textAt_value_eq (b := service) (t := s)]
  · cases (Normalize.textAt service profile m.name m.specifier m.content s).value with
    | ok content => rfl
    | error e => rfl
  · intro request
    rfl

/-- Analyzing does what normalizing and then collecting do. -/
theorem analyze_cases :
    (∃ content found, (m.analyze service profile s).value
        = (.ok (), { m with content, dependencies := Dependencies.addAll m.dependencies found }))
      ∨ (∃ e, (m.analyze service profile s).value = (.error (.normalize m.name e), m))
      ∨ ∃ content e, (m.normalize service profile s).value = (.ok (), { m with content })
        ∧ (m.analyze service profile s).value
          = (.error (.collect m.name e), { m with content }) := by
  rw [← normalize_capturing]
  exact m.normalizeAndCollect_cases service.capturing profile ([], s)

/-! ## What is kept -/

/-- A later state of a module: the same module, with what has been found kept in its order. -/
structure Extends (m m' : Module) : Prop where
  name_eq : m'.name = m.name
  specifier_eq : m'.specifier = m.specifier
  dependencies : m.dependencies <+: m'.dependencies
  nodup : m.dependencies.Nodup → m'.dependencies.Nodup

theorem Extends.refl (m : Module) : Extends m m :=
  ⟨rfl, rfl, List.prefix_refl _, id⟩

theorem Extends.trans {m m' m'' : Module} (h : Extends m m') (h' : Extends m' m'') :
    Extends m m'' :=
  ⟨h'.name_eq.trans h.name_eq, h'.specifier_eq.trans h.specifier_eq,
    h.dependencies.trans h'.dependencies, fun hm => h'.nodup (h.nodup hm)⟩

theorem Extends.withContent (m : Module) (content : List Char) : Extends m { m with content } :=
  ⟨rfl, rfl, List.prefix_refl _, id⟩

/-- New dependencies go behind the others, each once. -/
theorem Extends.addAll (m : Module) (content : List Char) (found : List String) :
    Extends m { m with content, dependencies := Dependencies.addAll m.dependencies found } :=
  ⟨rfl, rfl, Dependencies.prefix_addAll _ _, fun hm => Dependencies.nodup_addAll hm _⟩

end Module

/-! ## Actions -/

/-- What can be done to a module. A pass comes with the service it asks. -/
inductive ModuleAction (σ : Type) where
  | normalize (service : Service σ)
  | collect (service : Service σ)
  | analyze (service : Service σ)
  /-- Any change of the text. -/
  | edit (change : List Char → List Char)
  /-- Another profile for the passes to come. -/
  | configure (profile : Profile)

/-- A module with what its passes depend on. -/
structure ModuleSession (σ : Type) where
  module : Module
  profile : Profile
  /-- The state of the services. -/
  services : σ

namespace ModuleAction

/-- Does an action: how it ends, and what it leaves. -/
def run (s : ModuleSession σ) : ModuleAction σ → Except ModuleError Unit × ModuleSession σ
  | .normalize service =>
    let step := s.module.normalize service s.profile s.services
    (step.value.1.mapError (.normalize s.module.name),
      { s with module := step.value.2, services := step.state })
  | .collect service =>
    let step := s.module.collect service s.profile s.services
    (step.value.1.mapError (.collect s.module.name),
      { s with module := step.value.2, services := step.state })
  | .analyze service =>
    let step := s.module.analyze service s.profile s.services
    (step.value.1, { s with module := step.value.2, services := step.state })
  | .edit change => (.ok (), { s with module.content := change s.module.content })
  | .configure profile => (.ok (), { s with profile })

/-- What actions leave, one after the other, however they end. -/
def runAll (s : ModuleSession σ) (actions : List (ModuleAction σ)) : ModuleSession σ :=
  actions.foldl (fun s action => (action.run s).2) s

/-- An action leads to a later state of the same module. -/
theorem run_extends (s : ModuleSession σ) (action : ModuleAction σ) :
    s.module.Extends (action.run s).2.module := by
  cases action with
  | normalize service =>
    simp only [run]
    rcases s.module.normalize_cases service s.profile s.services with ⟨content, h⟩ | ⟨e, h⟩
    · rw [h]
      exact .withContent _ _
    · rw [h]
      exact .refl _
  | collect service =>
    simp only [run]
    rcases s.module.collect_cases service s.profile s.services with ⟨found, h⟩ | ⟨e, h⟩
    · rw [h]
      exact .addAll _ _ _
    · rw [h]
      exact .refl _
  | analyze service =>
    simp only [run]
    rcases s.module.analyze_cases service s.profile s.services with
      ⟨content, found, h⟩ | ⟨e, h⟩ | ⟨content, e, -, h⟩
    · rw [h]
      exact .addAll _ _ _
    · rw [h]
      exact .refl _
    · rw [h]
      exact .withContent _ _
  | edit change => exact .withContent _ _
  | configure profile => exact .refl _

/-- Any number of actions lead to a later state of the same module. -/
theorem runAll_extends (s : ModuleSession σ) (actions : List (ModuleAction σ)) :
    s.module.Extends (runAll s actions).module := by
  induction actions generalizing s with
  | nil => exact .refl _
  | cons action actions ih => exact (run_extends s action).trans (ih (action.run s).2)

/-- Whether an action that ended in the given error had already normalized the text: analyzing does,
when it fails to collect. -/
def FailedCollecting (action : ModuleAction σ) (e : ModuleError) : Prop :=
  (∃ service, action = .analyze service) ∧ ∃ name error, e = .collect name error

/-- An action that fails leaves the module as it was, unless it had already normalized the text. -/
theorem run_module_of_error {s : ModuleSession σ} {action : ModuleAction σ} {e : ModuleError}
    (herror : (action.run s).1 = .error e) (hearly : ¬ action.FailedCollecting e) :
    (action.run s).2.module = s.module := by
  cases action with
  | normalize service =>
    simp only [run] at herror ⊢
    rcases s.module.normalize_cases service s.profile s.services with ⟨content, h⟩ | ⟨e, h⟩
    · rw [h] at herror
      cases herror
    · rw [h]
  | collect service =>
    simp only [run] at herror ⊢
    rcases s.module.collect_cases service s.profile s.services with ⟨found, h⟩ | ⟨e, h⟩
    · rw [h] at herror
      cases herror
    · rw [h]
  | analyze service =>
    simp only [run] at herror ⊢
    rcases s.module.analyze_cases service s.profile s.services with
      ⟨content, found, h⟩ | ⟨e, h⟩ | ⟨content, e, -, h⟩
    · rw [h] at herror
      cases herror
    · rw [h]
    · rw [h] at herror
      cases herror
      exact absurd ⟨⟨service, rfl⟩, _, _, rfl⟩ hearly
  | edit change => cases herror
  | configure profile => cases herror

/-- Analyzing that fails to collect leaves the module as normalizing does when it succeeds. -/
theorem run_analyze_of_collect {s : ModuleSession σ} {service : Service σ} {name : String}
    {error : SyntaxError}
    (herror : ((ModuleAction.analyze service).run s).1 = .error (.collect name error)) :
    (s.module.normalize service s.profile s.services).value
      = (.ok (), ((ModuleAction.analyze service).run s).2.module) := by
  simp only [run] at herror ⊢
  rcases s.module.analyze_cases service s.profile s.services with
    ⟨content, found, h⟩ | ⟨e, h⟩ | ⟨content, e, hnormalize, h⟩
  · rw [h] at herror
    cases herror
  · rw [h] at herror
    cases herror
  · rw [hnormalize, h]

theorem run_normalize_dependencies (s : ModuleSession σ) (service : Service σ) :
    ((ModuleAction.normalize service).run s).2.module.dependencies = s.module.dependencies := by
  simp only [run]
  rcases s.module.normalize_cases service s.profile s.services with ⟨content, h⟩ | ⟨e, h⟩
  · rw [h]
  · rw [h]

theorem run_collect_content (s : ModuleSession σ) (service : Service σ) :
    ((ModuleAction.collect service).run s).2.module.content = s.module.content := by
  simp only [run]
  rcases s.module.collect_cases service s.profile s.services with ⟨found, h⟩ | ⟨e, h⟩
  · rw [h]
  · rw [h]

/-- **What every action in the life of a module keeps.** Whatever has been done to a module that
started without dependencies, the next action keeps its name and specifier, and its dependencies
with their order and each once. Normalizing leaves the dependencies alone and collecting the text.
An action that fails changes nothing, except that analyzing, when it fails to collect, has
normalized the text. -/
theorem lifeCycle {m : Module} (hnew : m.dependencies = []) (profile : Profile) (services : σ)
    (actions : List (ModuleAction σ)) (action : ModuleAction σ) :
    let before := runAll ⟨m, profile, services⟩ actions
    let after := action.run before
    after.2.module.name = m.name
      ∧ after.2.module.specifier = m.specifier
      ∧ after.2.module.dependencies.Nodup
      ∧ before.module.dependencies <+: after.2.module.dependencies
      ∧ (∀ service, action = .normalize service →
        after.2.module.dependencies = before.module.dependencies)
      ∧ (∀ service, action = .collect service → after.2.module.content = before.module.content)
      ∧ (∀ e, after.1 = .error e → after.2.module.dependencies = before.module.dependencies)
      ∧ (∀ e, after.1 = .error e → ¬ action.FailedCollecting e →
        after.2.module.content = before.module.content)
      ∧ ∀ service name error, action = .analyze service →
        after.1 = .error (.collect name error) →
        (before.module.normalize service before.profile before.services).value
          = (.ok (), after.2.module) := by
  intro before after
  have hbefore : m.Extends before.module := runAll_extends ⟨m, profile, services⟩ actions
  have hstep : before.module.Extends after.2.module := run_extends before action
  have hlife := hbefore.trans hstep
  refine ⟨hlife.name_eq, hlife.specifier_eq, hlife.nodup (by simp [hnew]), hstep.dependencies,
    ?_, ?_, ?_, ?_, ?_⟩
  · rintro service rfl
    exact run_normalize_dependencies before service
  · rintro service rfl
    exact run_collect_content before service
  · intro e herror
    by_cases hearly : action.FailedCollecting e
    · obtain ⟨⟨service, rfl⟩, name, error, rfl⟩ := hearly
      -- the module is one that normalizing left, and normalizing finds nothing
      have hnormalized := run_analyze_of_collect herror
      have hkept := run_normalize_dependencies before service
      simp only [run] at hkept
      rwa [hnormalized] at hkept
    · rw [run_module_of_error herror hearly]
  · intro e herror hearly
    rw [run_module_of_error herror hearly]
  · rintro service name error rfl herror
    exact run_analyze_of_collect herror

/-- A module without a text. -/
def blankModule : Module :=
  { name := "m", specifier := ModuleId.fallback, content := [] }

/-- A life in which a dependency is found before the text becomes one that can be normalized, but is
refused afterwards. -/
def refusedLater : List (ModuleAction Nat) :=
  [.edit fun _ => "require(['b']);".toList, .collect Service.counting,
    .edit fun text => "if (a) 'use strict'; else ".toList ++ text]

theorem refusedLater_error :
    ((ModuleAction.analyze Service.counting).run (runAll ⟨blankModule, { }, 0⟩ refusedLater)).1
      = .error (.collect "m" ⟨ModuleId.fallback⟩) := by
  decide +kernel

theorem lifeCycle_refusedLater :
    let before := runAll ⟨blankModule, { }, 0⟩ refusedLater
    let after := (ModuleAction.analyze Service.counting).run before
    after.1 = .error (.collect "m" ⟨ModuleId.fallback⟩)
      ∧ before.module.dependencies = ["b"]
      ∧ after.2.module.dependencies = before.module.dependencies
      ∧ after.2.module.content ≠ before.module.content
      ∧ (before.module.normalize Service.counting before.profile before.services).value
        = (.ok (), after.2.module) := by
  obtain ⟨-, -, -, -, -, -, hkept, -, hnormalized⟩ :=
    lifeCycle (m := blankModule) rfl { } 0 refusedLater (.analyze Service.counting)
  refine ⟨refusedLater_error, by decide +kernel, hkept _ refusedLater_error, by decide +kernel, ?_⟩
  exact hnormalized _ _ _ rfl refusedLater_error

end ModuleAction

end AmdModules
