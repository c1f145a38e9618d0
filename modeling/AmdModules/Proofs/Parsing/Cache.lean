import AmdModules.Proofs.Parsing.Agreement

/-!
# The store cannot be seen

A capturing service answers from its store when it can. `capturing_transparent` says that nobody
who asks it can tell: over any run of requests and removals that starts with an empty store, every
answer is the answer of the service behind it, and that service is asked exactly when the store
holds nothing that fits. Analyzing a module with a store therefore ends as the two passes without
one do.

What makes this true is `Store.Holds`: every entry is the answer to a request for its own text and
media type under its own specifier. An entry is used only for the text and media type it reports,
so it answers the request that is made, not only the one it was stored for.
-/

set_option autoImplicit false

namespace AmdModules

variable {σ : Type}

/-- A service whose answers are a function of the request, and whose parsed sources report the text
and the media type they were asked for. -/
structure Service.Computes (service : Service σ)
    (answer : ParseRequest → Except SyntaxError ParsedSource) : Prop where
  value_eq : ∀ request state, (service request state).value = answer request
  text_eq : ∀ {request source}, answer request = .ok source → source.text = request.text
  mediaType_eq : ∀ {request source}, answer request = .ok source →
    source.mediaType = request.mediaType

/-- Writes down every request that reaches a service, the last one first. -/
def Service.recorded (service : Service σ) : Service (List ParseRequest × σ) :=
  fun request (asked, state) =>
    let step := service request state
    { value := step.value, state := (request :: asked, step.state), events := step.events }

theorem Service.Computes.recorded {service : Service σ}
    {answer : ParseRequest → Except SyntaxError ParsedSource} (h : service.Computes answer) :
    service.recorded.Computes answer where
  value_eq request state := h.value_eq request state.2
  text_eq := h.text_eq
  mediaType_eq := h.mediaType_eq

namespace Store

/-! ## Entries of a store -/

theorem get?_erase_eq_some {store : Store} {removed specifier : Url} {source : ParsedSource}
    (h : (store.erase removed).get? specifier = some source) :
    store.get? specifier = some source := by
  induction store with
  | nil => exact h
  | cons entry store ih =>
    obtain ⟨key, kept⟩ := entry
    simp only [get?, erase] at h ih ⊢
    by_cases hkey : key = removed
    · -- the entry goes, so `specifier` is found behind it and is not its key
      subst hkey
      rw [List.filter_cons_of_neg (by simp)] at h
      have hne : specifier ≠ key := by
        rintro rfl
        simp [List.lookup_eq_some_iff] at h
        grind
      rw [List.lookup_cons, beq_eq_false_iff_ne.mpr hne]
      exact ih h
    · rw [List.filter_cons_of_pos (by simpa using hkey)] at h
      rw [List.lookup_cons] at h ⊢
      cases hcond : specifier == key with
      | true => rw [hcond] at h; exact h
      | false => rw [hcond] at h; exact ih h

theorem get?_insert {store : Store} {inserted specifier : Url} {source : ParsedSource} :
    (store.insert inserted source).get? specifier
      = if specifier = inserted then some source
        else (store.erase inserted).get? specifier := by
  unfold get? insert
  rw [List.lookup_cons]
  by_cases h : specifier = inserted
  · simp [h]
  · simp [h, beq_eq_false_iff_ne.mpr h]

/-- An entry answers a request when it reports the text and the media type asked for. -/
theorem answer?_eq_some_iff {store : Store} {request : ParseRequest} {source : ParsedSource} :
    store.answer? request = some source ↔
      store.get? request.specifier = some source ∧ source.text = request.text
        ∧ source.mediaType = request.mediaType := by
  unfold answer?
  rw [Option.filter_eq_some_iff]
  simp only [Bool.and_eq_true, decide_eq_true_eq]
  constructor
  · rintro ⟨hget, hmedia, htext⟩
    exact ⟨hget, htext, hmedia⟩
  · rintro ⟨hget, htext, hmedia⟩
    exact ⟨hget, hmedia, htext⟩

/-- Whether a store holds an entry that answers a request. -/
def Fits (store : Store) (request : ParseRequest) : Prop :=
  ∃ source, store.get? request.specifier = some source ∧ source.text = request.text
    ∧ source.mediaType = request.mediaType

theorem answer?_eq_none_iff {store : Store} {request : ParseRequest} :
    store.answer? request = none ↔ ¬ store.Fits request := by
  rw [Option.eq_none_iff_forall_ne_some]
  simp only [ne_eq, answer?_eq_some_iff, Fits, not_exists]

/-- Every entry is the answer to a request for what it reports, under its own specifier. -/
def Holds (answer : ParseRequest → Except SyntaxError ParsedSource) (store : Store) : Prop :=
  ∀ specifier source, store.get? specifier = some source →
    answer ⟨specifier, source.text, source.mediaType⟩ = .ok source

variable {answer : ParseRequest → Except SyntaxError ParsedSource} {store : Store}

theorem Holds.nil : Holds answer [] := by
  intro specifier source h
  exact absurd h (by simp [get?])

theorem Holds.erase (h : store.Holds answer) (removed : Url) : (store.erase removed).Holds answer :=
  fun specifier source hget => h specifier source (get?_erase_eq_some hget)

theorem Holds.insert (h : store.Holds answer) {inserted : Url} {source : ParsedSource}
    (hsource : answer ⟨inserted, source.text, source.mediaType⟩ = .ok source) :
    (store.insert inserted source).Holds answer := by
  intro specifier kept hget
  rw [get?_insert] at hget
  split at hget
  · rename_i heq
    cases hget
    rw [heq]
    exact hsource
  · exact h.erase inserted specifier kept hget

/-- An entry that fits is the very answer to the request. -/
theorem Holds.answer_eq (h : store.Holds answer) {request : ParseRequest} {source : ParsedSource}
    (hfit : store.answer? request = some source) : answer request = .ok source := by
  obtain ⟨hget, htext, hmedia⟩ := answer?_eq_some_iff.mp hfit
  have hkept := h request.specifier source hget
  rw [htext, hmedia] at hkept
  exact hkept

end Store

/-! ## One request -/

section Request

variable {service : Service σ} {answer : ParseRequest → Except SyntaxError ParsedSource}
  {store : Store} {request : ParseRequest} {state : σ}

theorem Service.capturing_of_fits (h : store.Fits request) :
    (service.capturing request (store, state)).state = (store, state) := by
  cases hanswer : store.answer? request with
  | none => exact absurd h (Store.answer?_eq_none_iff.mp hanswer)
  | some source => simp [Service.capturing, hanswer]

theorem Service.capturing_of_not_fits (h : ¬ store.Fits request) :
    service.capturing request (store, state) =
      { value := (service request state).value
        state :=
          (match (service request state).value with
            | .ok source => store.insert request.specifier source
            | .error _ => store,
           (service request state).state)
        events := (service request state).events } := by
  rw [← Store.answer?_eq_none_iff] at h
  cases hvalue : (service request state).value with
  | ok source => simp only [Service.capturing, h, hvalue]
  | error e => simp only [Service.capturing, h, hvalue]

/-- The answer is that of the service behind the store. -/
theorem Service.Computes.capturing_value (hservice : service.Computes answer)
    (hstore : store.Holds answer) :
    (service.capturing request (store, state)).value = answer request := by
  cases hanswer : store.answer? request with
  | none =>
    rw [Service.capturing_of_not_fits (Store.answer?_eq_none_iff.mp hanswer)]
    exact hservice.value_eq request state
  | some source =>
    rw [hstore.answer_eq hanswer]
    simp [Service.capturing, hanswer]

/-- A request keeps the store sound: what it adds is the answer it gives. -/
theorem Service.Computes.capturing_holds (hservice : service.Computes answer)
    (hstore : store.Holds answer) :
    ((service.capturing request (store, state)).state.1).Holds answer := by
  by_cases hfit : store.Fits request
  · rw [Service.capturing_of_fits hfit]
    exact hstore
  · rw [Service.capturing_of_not_fits hfit]
    dsimp only
    rw [hservice.value_eq]
    cases hanswer : answer request with
    | error e => exact hstore
    | ok source =>
      refine hstore.insert ?_
      rw [hservice.text_eq hanswer, hservice.mediaType_eq hanswer]
      exact hanswer

/-- A refused text leaves the store as it was. -/
theorem Service.Computes.capturing_store_of_error (hservice : service.Computes answer)
    {e : SyntaxError} (herror : answer request = .error e) :
    (service.capturing request (store, state)).state.1 = store := by
  by_cases hfit : store.Fits request
  · rw [Service.capturing_of_fits hfit]
  · rw [Service.capturing_of_not_fits hfit]
    dsimp only
    rw [hservice.value_eq, herror]

end Request

/-- The service behind a store is asked exactly when nothing in the store fits. -/
theorem Service.recorded_capturing_asked (service : Service σ) (store : Store)
    (request : ParseRequest) (asked : List ParseRequest) (state : σ) :
    (service.recorded.capturing request (store, asked, state)).state.2.1 = request :: asked
      ↔ ¬ store.Fits request := by
  by_cases hfit : store.Fits request
  · rw [Service.capturing_of_fits hfit]
    simp [hfit]
  · rw [Service.capturing_of_not_fits hfit]
    simp [hfit, Service.recorded]

/-! ## Runs of requests and removals -/

/-- What can be done with a capturing service and its store. -/
inductive CacheAction where
  | parse (request : ParseRequest)
  | remove (specifier : Url)

namespace CacheAction

/-- The state an action leaves. -/
def apply (service : Service σ) : CacheAction → Store × σ → Store × σ
  | .parse request, state => (service.capturing request state).state
  | .remove specifier, (store, state) => (store.erase specifier, state)

/-- The state a run of actions leaves, from an empty store on. -/
def applyAll (service : Service σ) (state : σ) (actions : List CacheAction) : Store × σ :=
  actions.foldl (fun state action => action.apply service state) ([], state)

variable {service : Service σ} {answer : ParseRequest → Except SyntaxError ParsedSource}

theorem apply_holds (hservice : service.Computes answer) (action : CacheAction)
    {state : Store × σ} (h : state.1.Holds answer) :
    (action.apply service state).1.Holds answer := by
  cases action with
  | parse request => exact hservice.capturing_holds h
  | remove specifier => exact h.erase specifier

theorem foldl_holds (hservice : service.Computes answer) (actions : List CacheAction)
    {state : Store × σ} (h : state.1.Holds answer) :
    (actions.foldl (fun state action => action.apply service state) state).1.Holds answer := by
  induction actions generalizing state with
  | nil => exact h
  | cons action actions ih => exact ih (apply_holds hservice action h)

theorem applyAll_holds (hservice : service.Computes answer) (actions : List CacheAction)
    (state : σ) : (applyAll service state actions).1.Holds answer :=
  foldl_holds hservice actions Store.Holds.nil

end CacheAction

/-- A capturing service agrees with the one behind it as long as the store is sound. -/
theorem Service.Computes.capturing_agree {service : Service σ}
    {answer : ParseRequest → Except SyntaxError ParsedSource} (h : service.Computes answer) :
    Service.Agree (fun s (_ : σ) => s.1.Holds answer) service.capturing service := by
  intro request s t hs
  refine ⟨?_, h.capturing_holds hs⟩
  rw [h.capturing_value hs, h.value_eq]

/-- What normalizing and then collecting end in: collecting starts with the module and the state
that normalizing left, and is left out when that failed. -/
theorem Module.normalizeAndCollect_value (service : Service σ) (profile : Profile) (m : Module)
    (state : σ) :
    let normalized := m.normalize service profile state
    let collected := normalized.value.2.collect service profile normalized.state
    (m.normalizeAndCollect service profile state).value =
      match normalized.value.1, collected.value.1 with
      | .error e, _ => (.error (.normalize normalized.value.2.name e), normalized.value.2)
      | .ok (), .error e => (.error (.collect collected.value.2.name e), collected.value.2)
      | .ok (), .ok () => (.ok (), collected.value.2) := by
  rcases hnormalize : m.normalize service profile state with ⟨⟨outcome, m'⟩, state', events⟩
  cases outcome with
  | error e => simp [normalizeAndCollect, Bind.bind, Pure.pure, hnormalize]
  | ok _ =>
    rcases hcollect : m'.collect service profile state' with ⟨⟨outcome, m''⟩, state'', events'⟩
    cases outcome <;>
      simp [normalizeAndCollect, Bind.bind, Pure.pure, hnormalize, hcollect]

/-- **A store in front of a service cannot be seen.** Whatever has been asked and removed before,
the answer to the next request is that of the service behind the store, which is asked if and only
if no entry fits, and a refused text changes no entry. So a module that is analyzed, with a store of
its own, ends as it does after normalizing and, if that succeeds, collecting without one. -/
theorem capturing_transparent {service : Service σ}
    {answer : ParseRequest → Except SyntaxError ParsedSource} (h : service.Computes answer) :
    (∀ (start : σ) (actions : List CacheAction) (request : ParseRequest),
      let before := CacheAction.applyAll service.recorded ([], start) actions
      let step := service.recorded.capturing request before
      step.value = answer request
        ∧ (step.state.2.1 = request :: before.2.1 ↔ ¬ before.1.Fits request)
        ∧ (before.1.Fits request → step.state = before)
        ∧ ∀ e, answer request = .error e → step.state.1 = before.1)
    ∧ ∀ (profile : Profile) (m : Module) (state : σ),
        let normalized := m.normalize service profile state
        let collected := normalized.value.2.collect service profile normalized.state
        (m.analyze service profile state).value =
          match normalized.value.1, collected.value.1 with
          | .error e, _ => (.error (.normalize normalized.value.2.name e), normalized.value.2)
          | .ok (), .error e => (.error (.collect collected.value.2.name e), collected.value.2)
          | .ok (), .ok () => (.ok (), collected.value.2) := by
  refine ⟨fun start actions request => ?_, fun profile m state => ?_⟩
  · have hholds := CacheAction.applyAll_holds h.recorded actions ([], start)
    refine ⟨h.recorded.capturing_value hholds, ?_, Service.capturing_of_fits, ?_⟩
    · exact service.recorded_capturing_asked _ request _ _
    · exact fun e he => h.recorded.capturing_store_of_error he
  · exact (Module.normalizeAndCollect_agree h.capturing_agree profile m ([], state) state
      Store.Holds.nil).1.trans (Module.normalizeAndCollect_value service profile m state)

theorem Service.counting_computes : Service.counting.Computes ParseRequest.parse where
  value_eq _ _ := rfl
  text_eq {request source} h := by
    unfold ParseRequest.parse at h
    split at h <;> cases h
    rfl
  mediaType_eq {request source} h := by
    unfold ParseRequest.parse at h
    split at h <;> cases h
    rfl

/-- The parser that counts, asked again for a text that was removed in between, and a module that
is analyzed with it. -/
theorem capturing_transparent_counting :
    let request : ParseRequest := ⟨ModuleId.fallback, "define()".toList, .javaScript⟩
    let before := CacheAction.applyAll Service.counting.recorded ([], 0)
      [.parse request, .remove ModuleId.fallback]
    let m : Module := { name := "a", specifier := ModuleId.fallback, content := "define()".toList }
    let normalized := m.normalize Service.counting { } 0
    let collected := normalized.value.2.collect Service.counting { } normalized.state
    Service.counting.Computes ParseRequest.parse
      ∧ (Service.counting.recorded.capturing request before).value = request.parse
      ∧ collected.value.2.content = "define('a',[],)".toList
      ∧ (m.analyze Service.counting { } 0).value =
          match normalized.value.1, collected.value.1 with
          | .error e, _ => (.error (.normalize normalized.value.2.name e), normalized.value.2)
          | .ok (), .error e => (.error (.collect collected.value.2.name e), collected.value.2)
          | .ok (), .ok () => (.ok (), collected.value.2) :=
  ⟨Service.counting_computes,
    ((capturing_transparent Service.counting_computes).1 0 _ _).1,
    by decide +kernel,
    (capturing_transparent Service.counting_computes).2 _ _ 0⟩

end AmdModules
