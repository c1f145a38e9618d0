import AmdModules.Transform

/-!
# Chains of transformers

`Transformer.runAll` runs a list of transformers and stops at the first that fails. What a whole run
does is said twice here without the recursion. `Passes` is a run in which all that apply succeed,
and `FailsAt` names the transformer a run ends at, with the text it was handed; every run is one or
the other (`passes_or_failsAt`), so `FailsAt` says exactly when a run fails (`runAll_eq_error_iff`).
And a run over a list in two parts is a run over the first part, followed by one over the second if
the first succeeded (`runAll_append`).

A run is compared as a whole: its outcome, the text, the state it leaves and what it reported. So a
transformer that is not run is one of which no trace is left.
-/

set_option autoImplicit false

namespace AmdModules

variable {σ : Type}

instance : LawfulMonad (Traced σ) :=
  LawfulMonad.mk' (Traced σ)
    (fun p => funext fun s => congrArg (Step.mk _ _) (List.append_nil (p s).events))
    (fun _ _ => rfl)
    (fun p f g => funext fun s => congrArg (Step.mk _ _) (List.append_assoc ..))

namespace Transformer

/-! ## Running one after the other -/

/-- What a run ends with: whether it succeeded, and the text. -/
abbrev Outcome : Type :=
  Except TransformError Unit × List Char

/-- A run, and another one over the text it leaves if it succeeded. -/
def andThen (first : Traced σ Outcome) (next : List Char → Traced σ Outcome) : Traced σ Outcome := do
  match ← first with
  | (.ok (), text) => next text
  | (.error cause, text) => return (.error cause, text)

theorem andThen_pure_ok (text : List Char) (next : List Char → Traced σ Outcome) :
    andThen (pure (.ok (), text)) next = next text :=
  pure_bind _ _

theorem andThen_assoc (first : Traced σ Outcome) (second third : List Char → Traced σ Outcome) :
    andThen (andThen first second) third = andThen first fun text => andThen (second text) third := by
  unfold andThen
  rw [bind_assoc]
  refine bind_congr fun outcome => ?_
  obtain ⟨_ | _, text⟩ := outcome
  · exact pure_bind _ _
  · rfl

/-- How a single transformer is run. -/
def attempt (profile : Profile) (name : String) (text : List Char) (t : Transformer σ) :
    Traced σ Outcome := do
  match ← t.transform profile name text with
  | .ok text => return (.ok (), text)
  | .error cause => return (.error cause, text)
  | .spoiled cause text => return (.error cause, text)

variable (profile : Profile) (specifier : Url) (name : String)

theorem runAll_cons_of_applies {t : Transformer σ} (h : t.appliesTo specifier = true)
    (ts : List (Transformer σ)) (text : List Char) :
    runAll profile specifier name text (t :: ts)
      = andThen (attempt profile name text t) (runAll profile specifier name · ts) := by
  rw [runAll, if_pos h, andThen, attempt, bind_assoc]
  refine bind_congr fun made => ?_
  cases made with
  | ok text => exact (pure_bind _ _).symm
  | error cause => exact (pure_bind _ _).symm
  | spoiled cause text => exact (pure_bind _ _).symm

theorem runAll_cons_of_not_applies {t : Transformer σ} (h : t.appliesTo specifier = false)
    (ts : List (Transformer σ)) (text : List Char) :
    runAll profile specifier name text (t :: ts) = runAll profile specifier name text ts := by
  rw [runAll, if_neg (by simp [h])]

/-- **A run over a list in two parts** is a run over the first part and, if that succeeded, one over
the second. -/
theorem runAll_append (ts ts' : List (Transformer σ)) (text : List Char) :
    runAll profile specifier name text (ts ++ ts')
      = andThen (runAll profile specifier name text ts)
        (runAll profile specifier name · ts') := by
  induction ts generalizing text with
  | nil => exact (andThen_pure_ok text (runAll profile specifier name · ts')).symm
  | cons t ts ih =>
    rw [List.cons_append]
    cases h : t.appliesTo specifier with
    | false => rw [runAll_cons_of_not_applies _ _ _ h, runAll_cons_of_not_applies _ _ _ h, ih]
    | true =>
      rw [runAll_cons_of_applies _ _ _ h, runAll_cons_of_applies _ _ _ h, andThen_assoc]
      simp only [ih]

/-- Only the transformers that apply count. -/
theorem runAll_filter (ts : List (Transformer σ)) (text : List Char) :
    runAll profile specifier name text (ts.filter (·.appliesTo specifier))
      = runAll profile specifier name text ts := by
  induction ts generalizing text with
  | nil => rfl
  | cons t ts ih =>
    cases h : t.appliesTo specifier with
    | false => rw [List.filter_cons_of_neg (by simp [h]), ih, runAll_cons_of_not_applies _ _ _ h]
    | true =>
      rw [List.filter_cons_of_pos (by simp [h]), runAll_cons_of_applies _ _ _ h,
        runAll_cons_of_applies _ _ _ h]
      simp only [ih]

/-! ## How a run ends -/

/-- A run in which every transformer that applies succeeds: where it ends, and what it makes of the
text. -/
inductive Passes : List (Transformer σ) → List Char → σ → Step σ (List Char) → Prop
  | nil (text : List Char) (s : σ) : Passes [] text s { value := text, state := s }
  | skip {t : Transformer σ} {ts : List (Transformer σ)} {text : List Char} {s : σ}
    {last : Step σ (List Char)} (hskips : t.appliesTo specifier = false)
    (hrest : Passes ts text s last) : Passes (t :: ts) text s last
  | apply {t : Transformer σ} {ts : List (Transformer σ)} {text next : List Char} {s : σ}
    {last : Step σ (List Char)} (happlies : t.appliesTo specifier = true)
    (hok : (t.transform profile name text s).value = .ok next)
    (hrest : Passes ts next (t.transform profile name text s).state last) :
    Passes (t :: ts) text s
      { last with events := (t.transform profile name text s).events ++ last.events }

/-- What a transformer made of `text` when it failed with `cause` and left `left`. -/
inductive Fails (text : List Char) : Transformed → TransformError → List Char → Prop
  | unchanged (cause : TransformError) : Fails text (.error cause) cause text
  | spoiled (cause : TransformError) (left : List Char) : Fails text (.spoiled cause left) cause left

/-- A run that ends at the transformer `t`: those in front of it have passed, and it applies and
fails on the text that they handed to it. -/
structure FailsAt (ts : List (Transformer σ)) (text : List Char) (s : σ) (t : Transformer σ)
    (before : List (Transformer σ)) (handed : Step σ (List Char)) (cause : TransformError)
    (left : List Char) : Prop where
  stands : ∃ after, ts = before ++ t :: after
  passes : Passes profile specifier name before text s handed
  applies : t.appliesTo specifier = true
  fails : Fails handed.value (t.transform profile name handed.value handed.state).value cause left

/-- The end of a run that fails at `t`: no trace of what stands behind it. -/
def failure (t : Transformer σ) (handed : Step σ (List Char)) (cause : TransformError)
    (left : List Char) : Step σ Outcome :=
  let last := t.transform profile name handed.value handed.state
  { value := (.error cause, left), state := last.state, events := handed.events ++ last.events }

variable {profile specifier name}

theorem Passes.runAll_eq {ts : List (Transformer σ)} {text : List Char} {s : σ}
    {last : Step σ (List Char)} (h : Passes profile specifier name ts text s last) :
    runAll profile specifier name text ts s = { last with value := (.ok (), last.value) } := by
  induction h with
  | nil text s => rfl
  | skip hskips hrest ih => rw [runAll_cons_of_not_applies _ _ _ hskips, ih]
  | @apply t ts text next s last happlies hok hrest ih =>
    rw [runAll, if_pos happlies]
    simp only [bind, hok, ih]

theorem FailsAt.runAll_eq {ts before : List (Transformer σ)} {text left : List Char} {s : σ}
    {t : Transformer σ} {handed : Step σ (List Char)} {cause : TransformError}
    (h : FailsAt profile specifier name ts text s t before handed cause left) :
    runAll profile specifier name text ts s = failure profile name t handed cause left := by
  obtain ⟨⟨after, rfl⟩, hpasses, happlies, hfails⟩ := h
  have hlast : runAll profile specifier name handed.value (t :: after) handed.state
      = { failure profile name t handed cause left with
          events := (t.transform profile name handed.value handed.state).events } := by
    rw [runAll, if_pos happlies]
    generalize hmade : t.transform profile name handed.value handed.state = made at hfails
    obtain ⟨value, state, events⟩ := made
    cases hfails with
    | unchanged => simp [bind, hmade, failure, pure]
    | spoiled => simp [bind, hmade, failure, pure]
  rw [runAll_append]
  simp only [andThen, bind, hpasses.runAll_eq, hlast, failure]

theorem FailsAt.skip {ts before : List (Transformer σ)} {text left : List Char} {s : σ}
    {t u : Transformer σ} {handed : Step σ (List Char)} {cause : TransformError}
    (hskips : t.appliesTo specifier = false)
    (h : FailsAt profile specifier name ts text s u before handed cause left) :
    FailsAt profile specifier name (t :: ts) text s u (t :: before) handed cause left := by
  obtain ⟨⟨after, rfl⟩, hpasses, happlies, hfails⟩ := h
  exact ⟨⟨after, rfl⟩, .skip hskips hpasses, happlies, hfails⟩

theorem FailsAt.apply {ts before : List (Transformer σ)} {text next left : List Char} {s : σ}
    {t u : Transformer σ} {handed : Step σ (List Char)} {cause : TransformError}
    (happlies : t.appliesTo specifier = true)
    (hok : (t.transform profile name text s).value = .ok next)
    (h : FailsAt profile specifier name ts next (t.transform profile name text s).state u before
      handed cause left) :
    FailsAt profile specifier name (t :: ts) text s u (t :: before)
      { handed with events := (t.transform profile name text s).events ++ handed.events } cause
      left := by
  obtain ⟨⟨after, rfl⟩, hpasses, hfailing, hfails⟩ := h
  exact ⟨⟨after, rfl⟩, .apply happlies hok hpasses, hfailing, hfails⟩

variable (profile specifier name) in
/-- **Every run passes, or fails at one of the transformers.** -/
theorem passes_or_failsAt (ts : List (Transformer σ)) (text : List Char) (s : σ) :
    (∃ last, Passes profile specifier name ts text s last)
      ∨ ∃ t before handed cause left,
        FailsAt profile specifier name ts text s t before handed cause left := by
  induction ts generalizing text s with
  | nil => exact .inl ⟨_, .nil text s⟩
  | cons t ts ih =>
    cases happlies : t.appliesTo specifier with
    | false =>
      rcases ih text s with ⟨last, hrest⟩ | ⟨u, before, handed, cause, left, hrest⟩
      · exact .inl ⟨last, .skip happlies hrest⟩
      · exact .inr ⟨u, _, _, cause, left, hrest.skip happlies⟩
    | true =>
      cases hmade : (t.transform profile name text s).value with
      | ok next =>
        rcases ih next (t.transform profile name text s).state with
          ⟨last, hrest⟩ | ⟨u, before, handed, cause, left, hrest⟩
        · exact .inl ⟨_, .apply happlies hmade hrest⟩
        · exact .inr ⟨u, _, _, cause, left, hrest.apply happlies hmade⟩
      | error cause =>
        exact .inr ⟨t, [], _, cause, text, ⟨ts, rfl⟩, .nil text s, happlies,
          hmade ▸ .unchanged cause⟩
      | spoiled cause left =>
        exact .inr ⟨t, [], _, cause, left, ⟨ts, rfl⟩, .nil text s, happlies,
          hmade ▸ .spoiled cause left⟩

theorem runAll_eq_error_iff {ts : List (Transformer σ)} {text left : List Char} {s : σ}
    {cause : TransformError} :
    (runAll profile specifier name text ts s).value = (.error cause, left)
      ↔ ∃ t before handed,
        FailsAt profile specifier name ts text s t before handed cause left := by
  constructor
  · intro h
    rcases passes_or_failsAt profile specifier name ts text s with
      ⟨last, hpasses⟩ | ⟨t, before, handed, cause', left', hfails⟩
    · simp [hpasses.runAll_eq] at h
    · rw [hfails.runAll_eq] at h
      simp only [failure, Prod.mk.injEq, Except.error.injEq] at h
      obtain ⟨rfl, rfl⟩ := h
      exact ⟨t, before, handed, hfails⟩
  · rintro ⟨t, before, handed, hfails⟩
    rw [hfails.runAll_eq]
    rfl

/-- Normalizing never leaves a text half done. -/
theorem Fails.of_normalizing {service : Service σ} {text text' left : List Char} {s : σ}
    {cause : TransformError}
    (h : Fails text ((normalizing service).transform profile name text' s).value cause left) :
    left = text := by
  have hcases : (∃ next, ((normalizing service).transform profile name text' s).value = .ok next)
      ∨ ∃ e, ((normalizing service).transform profile name text' s).value = .error e := by
    simp only [normalizing, bind]
    cases (Normalize.text service profile name text' s).value with
    | ok next => exact .inl ⟨next, rfl⟩
    | error e => exact .inr ⟨_, rfl⟩
  rcases hcases with ⟨next, hmade⟩ | ⟨e, hmade⟩
  · rw [hmade] at h
    cases h
  · rw [hmade] at h
    cases h
    rfl

/-- **Chains compose and fail cleanly.** A run over a list in two parts is a run over the first and,
only if that succeeded, one over the second. A run fails exactly when there is a transformer that
applies and fails on the text handed to it by those in front of it, which succeed; then the run ends
with the failure of that transformer, of those behind it there is no trace, and if it is one that
normalizes the text is still the one it was handed. Transformers that do not apply make no
difference. -/
theorem runAll_chain (profile : Profile) (specifier : Url) (name : String) (text : List Char) :
    (∀ ts ts' : List (Transformer σ), runAll profile specifier name text (ts ++ ts')
        = andThen (runAll profile specifier name text ts)
          fun text => runAll profile specifier name text ts')
      ∧ (∀ (ts : List (Transformer σ)) (s : σ) (cause : TransformError) (left : List Char),
        (runAll profile specifier name text ts s).value = (.error cause, left)
          ↔ ∃ t before handed,
            FailsAt profile specifier name ts text s t before handed cause left)
      ∧ (∀ (ts : List (Transformer σ)) (s : σ) (t : Transformer σ) (before : List (Transformer σ))
          (handed : Step σ (List Char)) (cause : TransformError) (left : List Char),
        FailsAt profile specifier name ts text s t before handed cause left →
          runAll profile specifier name text ts s = failure profile name t handed cause left
            ∧ runAll profile specifier name text before s
              = { handed with value := (.ok (), handed.value) }
            ∧ ∀ service, t = normalizing service → left = handed.value)
      ∧ ∀ ts ts' : List (Transformer σ),
        ts'.filter (·.appliesTo specifier) = ts.filter (·.appliesTo specifier) →
          runAll profile specifier name text ts' = runAll profile specifier name text ts := by
  refine ⟨fun ts ts' => runAll_append .., fun ts s cause left => runAll_eq_error_iff, ?_, ?_⟩
  · intro ts s t before handed cause left h
    refine ⟨h.runAll_eq, h.passes.runAll_eq, ?_⟩
    rintro service rfl
    exact h.fails.of_normalizing
  · intro ts ts' happlying
    rw [← runAll_filter, happlying, runAll_filter]

/-- Opens a parenthesis in front of files of the local system. -/
def opening : Transformer Nat where
  appliesTo specifier := specifier.scheme == "file".toList
  transform _ _ text := return .ok ('(' :: text)

/-- Fails with half of its work done, where it applies. -/
def halting : Transformer Nat where
  appliesTo specifier := specifier.scheme == "http".toList
  transform _ _ text := return .spoiled (.failed "halted") (text.drop 1)

theorem runAll_chain_refused :
    let chain := [halting, opening, normalizing Service.counting, opening]
    runAll { } ModuleId.fallback "m" ['a'] chain 3
        = { value := (.error (.normalize (.parse ⟨Url.localFile "/m.js".toList⟩)), ['(', 'a'])
            state := 4 }
      ∧ runAll { } ModuleId.fallback "m" ['a'] chain
        = runAll { } ModuleId.fallback "m" ['a'] chain.tail := by
  obtain ⟨-, -, hends, hskips⟩ := runAll_chain (σ := Nat) { } ModuleId.fallback "m" ['a']
  refine ⟨?_, hskips _ _ (by rfl)⟩
  refine (hends _ 3 (normalizing Service.counting) [halting, opening] ⟨['(', 'a'], 3, []⟩ _
    ['(', 'a'] ⟨⟨[opening], rfl⟩, ?_, rfl, ?_⟩).1.trans rfl
  · exact .skip rfl (.apply rfl rfl (.nil _ _))
  · exact .unchanged _

end Transformer

end AmdModules
