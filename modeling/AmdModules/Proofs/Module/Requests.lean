import AmdModules.Proofs.Module.LifeCycle
import AmdModules.Proofs.Parsing.Cache

/-!
# How often a module is parsed

A pass asks its service at most once: normalizing for any text, collecting only for the text of
what is a script by its specifier, and both as a script (`Module.normalize_state`,
`Module.collect_state`). So analyzing asks for two texts at most, and the second request gets through
to the service behind the store exactly when its text is another one
(`Service.Reports.capturing_pair`): specifier and media type are the same, so only the texts decide.
-/

set_option autoImplicit false

namespace AmdModules

variable {σ α β : Type}

/-! ## Requests and their number -/

namespace Service

/-- Whatever a service accepts, it accepts as the text and the media type it was asked for. -/
structure Reports (service : Service σ) : Prop where
  text_eq : ∀ {request s source}, (service request s).value = .ok source →
    source.text = request.text
  mediaType_eq : ∀ {request s source}, (service request s).value = .ok source →
    source.mediaType = request.mediaType

/-- Each request raises a count by one. -/
structure Counts (service : Service σ) (count : σ → Nat) : Prop where
  step : ∀ request s, count (service request s).state = count s + 1

/-- The state that requests leave, one after the other. -/
def after (service : Service σ) (requests : List ParseRequest) (s : σ) : σ :=
  requests.foldl (fun s request => (service request s).state) s

theorem Computes.reports {service : Service σ}
    {answer : ParseRequest → Except SyntaxError ParsedSource} (h : service.Computes answer) :
    service.Reports where
  text_eq {request s _} hvalue := h.text_eq ((h.value_eq request s).symm.trans hvalue)
  mediaType_eq {request s _} hvalue := h.mediaType_eq ((h.value_eq request s).symm.trans hvalue)

theorem Counts.after {service : Service σ} {count : σ → Nat} (h : service.Counts count)
    (requests : List ParseRequest) (s : σ) :
    count (service.after requests s) = count s + requests.length := by
  induction requests generalizing s with
  | nil => rfl
  | cons request requests ih =>
    have hrest := ih (service request s).state
    rw [h.step] at hrest
    rw [List.length_cons, Nat.add_comm requests.length, ← Nat.add_assoc]
    exact hrest

end Service

/-! ## Two requests to a store -/

/-- What is kept first answers a request for what it reports. -/
theorem Store.fits_insert_nil (source : ParsedSource) (request : ParseRequest) :
    (Store.insert [] request.specifier source).Fits request ↔
      source.text = request.text ∧ source.mediaType = request.mediaType := by
  simp only [Store.Fits, Store.get?_insert, if_true, Option.some.injEq, exists_eq_left']

namespace Service

variable {service : Service σ} {specifier : Url} {mediaType : MediaType} {text : List Char} {s : σ}

/-- **Two requests for one specifier.** When the first has been accepted, the second gets through
the store exactly when it is for another text. -/
theorem Reports.capturing_pair (h : service.Reports) {source : ParsedSource}
    (hfirst : (service ⟨specifier, text, mediaType⟩ s).value = .ok source) (text' : List Char) :
    (service.capturing.after [⟨specifier, text, mediaType⟩, ⟨specifier, text', mediaType⟩]
        ([], s)).2
      = service.after (if text' = text then [⟨specifier, text, mediaType⟩]
          else [⟨specifier, text, mediaType⟩, ⟨specifier, text', mediaType⟩]) s := by
  have hstate : (service.capturing ⟨specifier, text, mediaType⟩ ([], s)).state
      = (Store.insert [] specifier source, (service ⟨specifier, text, mediaType⟩ s).state) := by
    rw [capturing_of_not_fits (Store.answer?_eq_none_iff.mp rfl), hfirst]
  have hfits : (Store.insert [] specifier source).Fits ⟨specifier, text', mediaType⟩
      ↔ text' = text := by
    refine (Store.fits_insert_nil source ⟨specifier, text', mediaType⟩).trans ?_
    rw [h.text_eq hfirst, h.mediaType_eq hfirst]
    simp only [and_true, eq_comm]
  simp only [after, List.foldl_cons, List.foldl_nil, hstate]
  split
  · rename_i heq
    rw [capturing_of_fits (hfits.mpr heq)]
    rfl
  · rename_i hne
    rw [capturing_of_not_fits (mt hfits.mp hne)]
    rfl

end Service

/-! ## What each pass asks for -/

theorem Traced.bind_state (p : Traced σ α) (f : α → Traced σ β) (s : σ) :
    ((p >>= f) s).state = (f (p s).value (p s).state).state :=
  rfl

/-- Reports leave the state alone. -/
theorem Traced.forM_report_state (events : List Event) (s : σ) :
    ((events.forM Traced.report : Traced σ PUnit) s).state = s := by
  induction events generalizing s with
  | nil => rfl
  | cons e events ih => exact ih s

section

variable (service : Service σ) (profile : Profile) (s : σ)

theorem Normalize.textAt_state (name : String) (specifier : Url) (text : List Char) :
    (Normalize.textAt service profile name specifier text s).state
      = if text = [] then s else (service ⟨specifier, text, .javaScript⟩ s).state := by
  unfold Normalize.textAt
  cases text with
  | nil => rfl
  | cons c cs =>
    rw [if_neg (List.cons_ne_nil c cs)]
    simp only [List.isEmpty_cons, Bool.false_eq_true, if_false, Traced.bind_state]
    cases (service ⟨specifier, c :: cs, .javaScript⟩ s).value with
    | error e => rfl
    | ok source =>
      simp only [Traced.bind_state]
      have hreports := Traced.forM_report_state (Normalize.events name source.program)
        (service ⟨specifier, c :: cs, .javaScript⟩ s).state
      cases Normalize.apply profile name source.text source.program with
      | ok text => exact hreports
      | error e => exact hreports

/-- A text that is refused is not normalized. -/
theorem Normalize.textAt_ok {name : String} {specifier : Url} {text text' : List Char}
    (h : (Normalize.textAt service profile name specifier text s).value = .ok text')
    (hne : text ≠ []) :
    ∃ source, (service ⟨specifier, text, .javaScript⟩ s).value = .ok source := by
  cases hvalue : (service ⟨specifier, text, .javaScript⟩ s).value with
  | ok source => exact ⟨source, rfl⟩
  | error e =>
    unfold Normalize.textAt at h
    rw [if_neg (by simpa using hne), Traced.bind_value, hvalue] at h
    cases h

namespace Module

variable (m : Module)

/-- What is asked for to normalize a module: its text, as a script. -/
def scriptRequest : ParseRequest :=
  ⟨m.specifier, m.content, .javaScript⟩

theorem normalize_state :
    (m.normalize service profile s).state
      = service.after (if m.content = [] then [] else [m.scriptRequest]) s := by
  have hstate : (m.normalize service profile s).state
      = (Normalize.textAt service profile m.name m.specifier m.content s).state := by
    unfold normalize
    rw [Traced.bind_state]
    cases (Normalize.textAt service profile m.name m.specifier m.content s).value with
    | ok content => rfl
    | error e => rfl
  rw [hstate, Normalize.textAt_state]
  split
  · rfl
  · rfl

/-- Collecting asks for the text of a script, and of nothing else. -/
theorem collect_state :
    (m.collect service profile s).state
      = service.after (if m.content = [] ∨ MediaType.ofUrl m.specifier ≠ .javaScript then []
          else [m.scriptRequest]) s := by
  have hstate : (m.collect service profile s).state
      = (m.findDependencies service profile s).state := by
    unfold collect
    rw [Traced.bind_state]
    cases (m.findDependencies service profile s).value with
    | ok found => rfl
    | error e => rfl
  rw [hstate]
  unfold findDependencies
  by_cases hempty : m.content = []
  · rw [if_pos (List.isEmpty_iff.mpr hempty), if_pos (.inl hempty)]
    rfl
  · rw [if_neg (mt List.isEmpty_iff.mp hempty)]
    by_cases hscript : MediaType.ofUrl m.specifier = .javaScript
    · have hasks : ¬(m.content = [] ∨ MediaType.ofUrl m.specifier ≠ .javaScript) := by
        rintro (h | h)
        · exact hempty h
        · exact h hscript
      rw [if_neg hasks, hscript, if_neg (by decide), Traced.bind_state]
      cases (service ⟨m.specifier, m.content, .javaScript⟩ s).value with
      | ok source => rfl
      | error e => rfl
    · rw [if_pos (bne_iff_ne.mpr hscript), if_pos (.inr hscript)]
      rfl

/-- Collecting is left out when normalizing fails. -/
theorem normalizeAndCollect_state_of_error {e : NormalizeError} {m' : Module}
    (h : (m.normalize service profile s).value = (.error e, m')) :
    (m.normalizeAndCollect service profile s).state = (m.normalize service profile s).state := by
  unfold normalizeAndCollect
  rw [Traced.bind_state, h]
  rfl

/-- Otherwise the module that normalizing leaves is collected from. -/
theorem normalizeAndCollect_state_of_ok {m' : Module}
    (h : (m.normalize service profile s).value = (.ok (), m')) :
    (m.normalizeAndCollect service profile s).state
      = (m'.collect service profile (m.normalize service profile s).state).state := by
  unfold normalizeAndCollect
  rw [Traced.bind_state, h]
  dsimp only
  rw [Traced.bind_state]
  cases (m'.collect service profile (m.normalize service profile s).state).value.1 with
  | ok found => rfl
  | error e => rfl

/-- A text that is empty stays empty. -/
theorem normalize_value_of_empty (h : m.content = []) :
    (m.normalize service profile s).value = (.ok (), m) := by
  obtain ⟨name, specifier, content, dependencies⟩ := m
  cases h
  rfl

/-- A normalized module had a text that was accepted, if it had one. -/
theorem exists_source_of_normalize {m' : Module} (hne : m.content ≠ [])
    (h : (m.normalize service profile s).value = (.ok (), m')) :
    ∃ source, (service m.scriptRequest s).value = .ok source := by
  cases hvalue : (Normalize.textAt service profile m.name m.specifier m.content s).value with
  | ok content => exact Normalize.textAt_ok service profile s hvalue hne
  | error e =>
    unfold normalize at h
    rw [Traced.bind_value, hvalue] at h
    cases h

/-! ## What analyzing asks for -/

/-- What analyzing a module asks for, by what normalizing makes of it. -/
def requests (outcome : Except NormalizeError Unit × Module) : List ParseRequest :=
  if m.content = [] then []
  else
    match outcome with
    | (.error _, _) => [m.scriptRequest]
    | (.ok (), m') =>
      if MediaType.ofUrl m.specifier ≠ .javaScript ∨ m'.content = [] ∨ m'.content = m.content then
        [m.scriptRequest]
      else [m.scriptRequest, m'.scriptRequest]

variable {m} in
theorem requests_once {outcome : Except NormalizeError Unit × Module} (hne : m.content ≠ [])
    (h : (∃ e, outcome.1 = .error e) ∨ MediaType.ofUrl m.specifier ≠ .javaScript
      ∨ outcome.2.content = [] ∨ outcome.2.content = m.content) :
    m.requests outcome = [m.scriptRequest] := by
  obtain ⟨ending, m'⟩ := outcome
  unfold requests
  rw [if_neg hne]
  cases ending with
  | error e => rfl
  | ok done =>
    rcases h with ⟨e, he⟩ | h
    · cases he
    · exact if_pos h

variable {m} in
theorem requests_twice {outcome : Except NormalizeError Unit × Module} (hne : m.content ≠ [])
    (hok : outcome.1 = .ok ()) (hscript : MediaType.ofUrl m.specifier = .javaScript)
    (hcontent : outcome.2.content ≠ []) (hdifferent : outcome.2.content ≠ m.content) :
    m.requests outcome = [m.scriptRequest, outcome.2.scriptRequest] := by
  obtain ⟨ending, m'⟩ := outcome
  cases hok
  unfold requests
  rw [if_neg hne]
  refine if_neg ?_
  rintro (h | h | h)
  · exact h hscript
  · exact hcontent h
  · exact hdifferent h

variable {service} in
/-- **Which requests reach the service behind the store of `analyze`.** -/
theorem analyze_state (hreports : service.Reports) :
    (m.analyze service profile s).state
      = service.after (m.requests (m.normalize service profile s).value) s := by
  have hvalue := m.normalize_capturing service profile s
  have hnormalize := normalize_state service.capturing profile ([], s) m
  change (m.normalizeAndCollect service.capturing profile ([], s)).state.2 = _
  by_cases hempty : m.content = []
  · have hkept := normalize_value_of_empty service profile s m hempty
    rw [hkept] at hvalue
    rw [normalizeAndCollect_state_of_ok _ _ _ _ hvalue, collect_state, hnormalize,
      if_pos (.inl hempty), if_pos hempty]
    unfold requests
    rw [if_pos hempty]
    rfl
  · rw [if_neg hempty] at hnormalize
    rcases m.normalize_cases service profile s with ⟨content, hok⟩ | ⟨e, herror⟩
    · obtain ⟨source, hsource⟩ := exists_source_of_normalize service profile s m hempty hok
      rw [hok] at hvalue ⊢
      rw [normalizeAndCollect_state_of_ok _ _ _ _ hvalue, collect_state, hnormalize]
      by_cases hskips : content = [] ∨ MediaType.ofUrl m.specifier ≠ .javaScript
      · rw [if_pos hskips, requests_once hempty (.inr (hskips.symm.imp_right .inl))]
        rfl
      · -- collecting asks as well, and the store decides whether that gets through
        obtain ⟨hcontent, hscript⟩ := not_or.mp hskips
        rw [if_neg hskips]
        refine (hreports.capturing_pair hsource content).trans ?_
        by_cases hsame : content = m.content
        · rw [if_pos hsame, requests_once hempty (.inr (.inr (.inr hsame)))]
          rfl
        · rw [if_neg hsame, requests_twice hempty rfl (not_not.mp hscript) hcontent hsame]
          rfl
    · rw [herror] at hvalue ⊢
      rw [normalizeAndCollect_state_of_error _ _ _ _ hvalue, hnormalize,
        requests_once hempty (.inl ⟨e, rfl⟩)]
      rfl

end Module

end

/-- **How often analyzing parses.** Whatever the service keeps in its state, as long as each request
counts once and what is accepted is reported as it was asked for: a module without a text is not
parsed. Any other is parsed once when it cannot be normalized, when its specifier says that it is no
script, and when normalizing leaves no text or the same text. Otherwise it is parsed twice, also
when the second text is refused. -/
theorem analyze_parses {service : Service σ} {count : σ → Nat} (hreports : service.Reports)
    (hcounts : service.Counts count) (profile : Profile) (m : Module) (s : σ) :
    let normalized := (m.normalize service profile s).value
    let parsed := count (m.analyze service profile s).state
    (m.content = [] → parsed = count s)
      ∧ (m.content ≠ [] →
        (∃ e, normalized.1 = .error e) ∨ MediaType.ofUrl m.specifier ≠ .javaScript
          ∨ normalized.2.content = [] ∨ normalized.2.content = m.content → parsed = count s + 1)
      ∧ (m.content ≠ [] → normalized.1 = .ok () → MediaType.ofUrl m.specifier = .javaScript →
        normalized.2.content ≠ [] → normalized.2.content ≠ m.content → parsed = count s + 2) := by
  intro normalized parsed
  have hparsed : parsed = count s + (m.requests normalized).length := by
    rw [← hcounts.after, ← m.analyze_state profile s hreports]
  rw [hparsed]
  refine ⟨?_, ?_, ?_⟩
  · intro hempty
    unfold Module.requests
    rw [if_pos hempty]
    rfl
  · intro hne hone
    rw [Module.requests_once hne hone]
    rfl
  · intro hne hok hscript hcontent hdifferent
    rw [Module.requests_twice hne hok hscript hcontent hdifferent]
    rfl

theorem Service.counting_counts : Service.counting.Counts id where
  step _ _ := rfl

/-- A module whose text is refused once it has been normalized. -/
def refusedAfter : Module :=
  { name := "m", specifier := ModuleId.fallback
    content := "if (a) 'use strict'; else f();".toList }

theorem analyze_parses_refusedAfter :
    (refusedAfter.analyze Service.counting { } 3).value.1
        = .error (.collect "m" ⟨ModuleId.fallback⟩)
      ∧ id (refusedAfter.analyze Service.counting { } 3).state = id 3 + 2 := by
  obtain ⟨-, -, htwice⟩ :=
    analyze_parses Service.counting_computes.reports Service.counting_counts { } refusedAfter 3
  have hnormalized : refusedAfter.content ≠ []
      ∧ (refusedAfter.normalize Service.counting { } 3).value.1 = .ok ()
      ∧ MediaType.ofUrl refusedAfter.specifier = .javaScript
      ∧ (refusedAfter.normalize Service.counting { } 3).value.2.content ≠ []
      ∧ (refusedAfter.normalize Service.counting { } 3).value.2.content ≠ refusedAfter.content := by
    decide +kernel
  obtain ⟨hne, hok, hscript, hcontent, hdifferent⟩ := hnormalized
  exact ⟨by decide +kernel, htwice hne hok hscript hcontent hdifferent⟩

end AmdModules
