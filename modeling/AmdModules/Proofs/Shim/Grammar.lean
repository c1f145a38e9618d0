import AmdModules.Proofs.Profile.RoundTrip
import AmdModules.Proofs.Text.Pattern
import AmdModules.Proofs.Text.Split

/-!
# Which shims there are

A shim with an `init` names what it exports, and what it exports is a dotted global name. That is a
grammar (`IsDotted`): one or more names with dots between them. The documented pattern
(`exportsPattern`) and the check that is made (`isDottedName`) both decide it.

Every way to a shim goes through `ofParts`, or leaves `exports` and `init` out. So each shim that
can be had is `Valid`, and an object in JSON that says the parts of a shim loads as `ofParts` takes
them (`Describes.read_eq`, `Describes.parse_eq`).
-/

set_option autoImplicit false

namespace AmdModules

namespace Shim

/-! ## Dotted names -/

/-- A name of a global: an ASCII letter, `_` or `$`, and then word characters and `$`. -/
def IsGlobalName (name : List Char) : Prop :=
  ∃ c rest, name = c :: rest ∧ (c.isAlpha = true ∨ c = '_' ∨ c = '$')
    ∧ ∀ d ∈ rest, isWordChar d = true ∨ d = '$'

/-- One or more names with dots between them. -/
def IsDotted (text : List Char) : Prop :=
  ∃ names, names ≠ [] ∧ text = Text.joinWith ['.'] names ∧ ∀ name ∈ names, IsGlobalName name

theorem startsName_iff {c : Char} :
    startsName c = true ↔ c.isAlpha = true ∨ c = '_' ∨ c = '$' := by
  simp only [startsName, Bool.or_eq_true, beq_iff_eq, or_assoc]

theorem continuesName_iff {c : Char} :
    continuesName c = true ↔ isWordChar c = true ∨ c = '$' := by
  simp only [continuesName, Bool.or_eq_true, beq_iff_eq]

theorem isName_iff {name : List Char} : isName name = true ↔ IsGlobalName name := by
  cases name with
  | nil => simp [isName, IsGlobalName]
  | cons c rest =>
    simp [isName, IsGlobalName, startsName_iff, continuesName_iff, and_assoc]

theorem dot_not_mem {name : List Char} (h : IsGlobalName name) : '.' ∉ name := by
  obtain ⟨c, rest, rfl, hc, hrest⟩ := h
  intro hmem
  rcases List.mem_cons.mp hmem with rfl | hmem
  · exact absurd hc (by decide)
  · exact absurd (hrest _ hmem) (by decide)

/-- **What is checked is the grammar.** -/
theorem isDottedName_iff {text : List Char} : isDottedName text = true ↔ IsDotted text := by
  simp only [isDottedName, List.all_eq_true, isName_iff, Text.splitOn_eq]
  constructor
  · intro hnames
    refine ⟨text.splitOn '.', List.splitOn_ne_nil _ _, ?_, hnames⟩
    rw [Text.joinWith_eq, List.intercalate_splitOn]
  · rintro ⟨names, hne, rfl, hnames⟩
    have hdots : ∀ name ∈ names, '.' ∉ name := fun name h => dot_not_mem (hnames name h)
    rw [Text.joinWith_eq, List.splitOn_intercalate '.' hdots hne]
    exact hnames

open Text (Pattern)

/-- One name: `[A-Za-z_$][\w$]*`. -/
def namePattern : Pattern :=
  .seq (.one startsName) (.many (.one continuesName))

/-- A dot and a name: `\.[A-Za-z_$][\w$]*`. -/
def behindPattern : Pattern :=
  .seq (.one (· == '.')) namePattern

/-- The documented pattern: `^[A-Za-z_$][\w$]*(?:\.[A-Za-z_$][\w$]*)*$`. -/
def exportsPattern : Pattern :=
  .seq .start (.seq (.seq namePattern (.many behindPattern)) .stop)

theorem namePattern_means : namePattern.Means IsGlobalName := by
  refine ((Pattern.Means.one _).seq (Pattern.Means.many_one _)).congr fun inside => ?_
  constructor
  · rintro ⟨_, rest, rfl, ⟨c, rfl, hc⟩, hrest⟩
    exact ⟨c, rest, rfl, startsName_iff.mp hc, fun d hd => continuesName_iff.mp (hrest d hd)⟩
  · rintro ⟨c, rest, rfl, hc, hrest⟩
    exact ⟨[c], rest, rfl, ⟨c, rfl, startsName_iff.mpr hc⟩,
      fun d hd => continuesName_iff.mpr (hrest d hd)⟩

theorem behindPattern_means :
    behindPattern.Means fun piece => ∃ name, piece = '.' :: name ∧ IsGlobalName name := by
  refine ((Pattern.Means.one _).seq namePattern_means).congr fun inside => ?_
  constructor
  · rintro ⟨_, name, rfl, ⟨c, rfl, hc⟩, hname⟩
    obtain rfl := beq_iff_eq.mp hc
    exact ⟨name, rfl, hname⟩
  · rintro ⟨name, rfl, hname⟩
    exact ⟨['.'], name, rfl, ⟨'.', rfl, rfl⟩, hname⟩

/-- Pieces with a dot in front of a name, by their names. -/
theorem exists_names {pieces : List (List Char)}
    (h : ∀ piece ∈ pieces, ∃ name, piece = '.' :: name ∧ IsGlobalName name) :
    ∃ names : List (List Char), pieces.flatten = names.flatMap (['.'] ++ ·)
      ∧ ∀ name ∈ names, IsGlobalName name := by
  induction pieces with
  | nil => exact ⟨[], rfl, by simp⟩
  | cons piece pieces ih =>
    obtain ⟨⟨name, rfl, hname⟩, hpieces⟩ := List.forall_mem_cons.mp h
    obtain ⟨names, hflatten, hnames⟩ := ih hpieces
    refine ⟨name :: names, ?_, List.forall_mem_cons.mpr ⟨hname, hnames⟩⟩
    rw [List.flatten_cons, List.flatMap_cons, hflatten]
    rfl

theorem dotted_means : (Pattern.seq namePattern (.many behindPattern)).Means IsDotted := by
  refine (namePattern_means.seq behindPattern_means.many).congr fun inside => ?_
  constructor
  · rintro ⟨name, _, rfl, hname, pieces, rfl, hpieces⟩
    obtain ⟨names, hflatten, hnames⟩ := exists_names hpieces
    refine ⟨name :: names, List.cons_ne_nil _ _, ?_, List.forall_mem_cons.mpr ⟨hname, hnames⟩⟩
    rw [Json.Reader.joinWith_cons, hflatten]
  · rintro ⟨names, hne, rfl, hnames⟩
    cases names with
    | nil => exact absurd rfl hne
    | cons name names =>
      obtain ⟨hname, hnames⟩ := List.forall_mem_cons.mp hnames
      refine ⟨name, _, Json.Reader.joinWith_cons _ _ _, hname, names.map ('.' :: ·), ?_, ?_⟩
      · rw [← List.flatMap_def]
        rfl
      · intro piece hpiece
        obtain ⟨other, hother, rfl⟩ := List.mem_map.mp hpiece
        exact ⟨other, rfl, hnames other hother⟩

/-- **The documented pattern is the grammar.** -/
theorem isMatch_exportsPattern_iff {text : List Char} :
    exportsPattern.IsMatch text ↔ IsDotted text :=
  dotted_means.isMatch_anchored text

/-! ## What makes a shim -/

/-- An `init` comes with `exports`, and these are a dotted name. -/
structure Valid (shim : Shim) : Prop where
  exports_of_init : shim.init = none ∨ shim.exports ≠ none
  isDotted : ∀ name, shim.exports = some name → IsDotted name.toList

theorem Valid.not_initWithoutExports {shim : Shim} (h : shim.Valid) :
    ¬(shim.exports = none ∧ shim.init ≠ none) := by
  rintro ⟨hexports, hinit⟩
  rcases h.exports_of_init with hnone | hsome
  · exact hinit hnone
  · exact hsome hexports

variable {deps : List String} {exports init : Option String}

/-- **What `ofParts` answers**, in each of its cases. -/
theorem ofParts_cases (deps : List String) (exports init : Option String) :
    (ofParts deps exports init = .ok ⟨deps, exports, init⟩ ∧ Valid ⟨deps, exports, init⟩)
      ∨ (ofParts deps exports init = .error .initWithoutExports ∧ exports = none ∧ init ≠ none)
      ∨ ∃ name, ofParts deps exports init = .error (.invalidExports name) ∧ exports = some name
        ∧ ¬IsDotted name.toList := by
  unfold ofParts
  cases exports with
  | none =>
    cases init with
    | none => exact .inl ⟨rfl, .inl rfl, by rintro name ⟨⟩⟩
    | some init => exact .inr (.inl ⟨rfl, rfl, by simp⟩)
  | some name =>
    by_cases hname : isDottedName name.toList = true
    · refine .inl ⟨if_pos hname, .inr (by simp), ?_⟩
      rintro _ ⟨⟩
      exact isDottedName_iff.mp hname
    · exact .inr (.inr ⟨name, if_neg hname, rfl, mt isDottedName_iff.mpr hname⟩)

theorem ofParts_eq_ok_iff {shim : Shim} :
    ofParts deps exports init = .ok shim ↔ shim = ⟨deps, exports, init⟩ ∧ shim.Valid := by
  rcases ofParts_cases deps exports init with
    ⟨h, hvalid⟩ | ⟨h, hexports, hinit⟩ | ⟨name, h, hexports, hname⟩
  · rw [h]
    constructor
    · intro heq
      cases heq
      exact ⟨rfl, hvalid⟩
    · rintro ⟨rfl, -⟩
      rfl
  · rw [h]
    constructor
    · intro heq
      cases heq
    · rintro ⟨rfl, hvalid⟩
      exact absurd ⟨hexports, hinit⟩ hvalid.not_initWithoutExports
  · rw [h]
    constructor
    · intro heq
      cases heq
    · rintro ⟨rfl, hvalid⟩
      exact absurd (hvalid.isDotted name hexports) hname

theorem ofParts_eq_initWithoutExports_iff :
    ofParts deps exports init = .error .initWithoutExports ↔ exports = none ∧ init ≠ none := by
  rcases ofParts_cases deps exports init with
    ⟨h, hvalid⟩ | ⟨h, hexports, hinit⟩ | ⟨name, h, hexports, hname⟩
  · rw [h]
    constructor
    · intro heq
      cases heq
    · intro hlacks
      exact absurd hlacks hvalid.not_initWithoutExports
  · rw [h]
    exact ⟨fun _ => ⟨hexports, hinit⟩, fun _ => rfl⟩
  · rw [h]
    constructor
    · intro heq
      cases heq
    · rintro ⟨hnone, -⟩
      rw [hexports] at hnone
      cases hnone

theorem ofParts_eq_invalidExports_iff {name : String} :
    ofParts deps exports init = .error (.invalidExports name)
      ↔ exports = some name ∧ ¬IsDotted name.toList := by
  rcases ofParts_cases deps exports init with
    ⟨h, hvalid⟩ | ⟨h, hexports, hinit⟩ | ⟨other, h, hexports, hname⟩
  · rw [h]
    constructor
    · intro heq
      cases heq
    · rintro ⟨hexports, hname⟩
      exact absurd (hvalid.isDotted name hexports) hname
  · rw [h]
    constructor
    · intro heq
      cases heq
    · rintro ⟨hsome, -⟩
      rw [hexports] at hsome
      cases hsome
  · rw [h]
    constructor
    · intro heq
      cases heq
      exact ⟨hexports, hname⟩
    · rintro ⟨hsome, -⟩
      rw [hexports] at hsome
      cases hsome
      rfl

theorem Fits.valid {shim : Shim} (h : shim.Fits) : shim.Valid :=
  (ofParts_eq_ok_iff.mp h).2

theorem valid_ofDeps (deps : List String) : (ofDeps deps).Valid :=
  Fits.valid rfl

/-! ## Objects that say the parts of a shim -/

open Json (Reader Fault)

/-- What is found for a key stands for a part: a string for itself, and nothing or `null` for a part
that is left out. -/
def StandsFor (found : Option Json) : Option String → Prop
  | none => found = none ∨ found = some .null
  | some text => found = some (.string text)

/-- No key is repeated, and those of a shim say its parts. Other keys do not matter. -/
structure Describes (members : List (String × Json)) (deps : List String)
    (exports init : Option String) : Prop where
  nodup : (members.map Prod.fst).Nodup
  deps : (members.lookup "deps" = none ∧ deps = [])
    ∨ members.lookup "deps" = some (.list (deps.map Json.string))
  exports : StandsFor (members.lookup "exports") exports
  init : StandsFor (members.lookup "init") init

variable {members : List (String × Json)}

/-- A key that is not repeated is found once or not at all. -/
theorem filter_key (h : (members.map Prod.fst).Nodup) (key : String) :
    members.filter (·.1 == key) = ((members.lookup key).map (key, ·)).toList := by
  induction members with
  | nil => rfl
  | cons entry members ih =>
    obtain ⟨found, value⟩ := entry
    obtain ⟨hnew, hrest⟩ := List.nodup_cons.mp h
    by_cases hkey : found = key
    · subst hkey
      have hothers : members.filter (·.1 == found) = [] := by
        rw [List.filter_eq_nil_iff]
        intro other hother heq
        exact hnew (List.mem_map.mpr ⟨other, hother, beq_iff_eq.mp heq⟩)
      rw [List.filter_cons_of_pos (by simp), hothers, List.lookup_cons_self]
      rfl
    · rw [List.filter_cons_of_neg (by simpa using hkey), ih hrest, List.lookup_cons,
        beq_eq_false_iff_ne.mpr (Ne.symm hkey)]

theorem member?_eq {α : Type} (h : (members.map Prod.fst).Nodup) (key : String) (missing : α)
    (read : Json → Option α) :
    member? members key missing read = ((members.lookup key).map read).getD (some missing) := by
  unfold member?
  rw [filter_key h]
  cases members.lookup key with
  | none => rfl
  | some value => rfl

theorem nullable?_standsFor {found : Option Json} {part : Option String}
    (h : StandsFor found part) : (found.map nullable?).getD (some none) = some part := by
  cases part with
  | none =>
    rcases h with rfl | rfl
    · rfl
    · rfl
  | some text =>
    cases h
    rfl

/-- **The parts an object says are read from it.** -/
theorem Describes.parts?_eq (h : Describes members deps exports init) :
    parts? (.object members) = some (deps, exports, init) := by
  have hdeps : member? members "deps" [] strings? = some deps := by
    rw [member?_eq h.nodup]
    rcases h.deps with ⟨hnone, rfl⟩ | hsome
    · rw [hnone]
      rfl
    · rw [hsome]
      exact strings?_map deps
  have hexports : member? members "exports" none nullable? = some exports :=
    (member?_eq h.nodup _ _ _).trans (nullable?_standsFor h.exports)
  have hinit : member? members "init" none nullable? = some init :=
    (member?_eq h.nodup _ _ _).trans (nullable?_standsFor h.init)
  simp only [parts?, hdeps, hexports, hinit]
  rfl

/-- What is answered when the parts of a shim do not fit together. -/
def refusal (e : ShimError) : Fault :=
  ⟨.unwanted e.message, none⟩

/-- An object is read as `ofParts` takes the parts it says, wherever it stands. -/
theorem Describes.read_eq (h : Describes members deps exports init) {depth : Nat}
    {s s' : Json.Cursor} (hvalue : Reader.value depth s = (.ok (.object members), s')) :
    read depth s = ((ofParts deps exports init).mapError refusal, s') := by
  simp only [read, Bind.bind, hvalue, h.parts?_eq]
  cases ofParts deps exports init with
  | ok shim => rfl
  | error e => rfl

theorem Describes.parse_eq (h : Describes members deps exports init) {text : List Char}
    (hvalue : (Reader.value Reader.depthLimit).run text = .ok (.object members)) :
    parse text = (ofParts deps exports init).mapError refusal := by
  obtain ⟨s, hobject, hend⟩ := Json.Reader.run_eq_ok_iff.mp hvalue
  have hread := h.read_eq hobject
  cases hparts : ofParts deps exports init with
  | ok shim =>
    rw [hparts] at hread
    exact Json.Reader.run_eq_ok_iff.mpr ⟨s, hread, hend⟩
  | error e =>
    rw [hparts] at hread
    exact Json.Reader.run_eq_error hread

/-- The members that a shim is written with say its parts. -/
theorem describes_members (shim : Shim) :
    Describes shim.members shim.deps shim.exports shim.init := by
  obtain ⟨deps, exports, init⟩ := shim
  cases exports with
  | none =>
    cases init with
    | none => exact ⟨by simp [members], .inr rfl, .inl rfl, .inl rfl⟩
    | some init => exact ⟨by simp [members], .inr rfl, .inl rfl, rfl⟩
  | some exports =>
    cases init with
    | none => exact ⟨by simp [members], .inr rfl, rfl, .inl rfl⟩
    | some init => exact ⟨by simp [members], .inr rfl, rfl, rfl⟩

/-- What is written of some parts loads as `ofParts` takes them. -/
theorem parse_render (shim : Shim) :
    parse shim.render = (ofParts shim.deps shim.exports shim.init).mapError refusal := by
  have htakes : Json.Reader.Takes (Reader.value (125 + 3)) (shim.render ++ []) []
      (.object shim.members) := value_render shim []
  rw [List.append_nil] at htakes
  exact (describes_members shim).parse_eq htakes.run_eq

/-- **Only valid shims exist, and validation accepts exactly its grammar.** -/
theorem shims_valid :
    (∀ deps exports init,
      ((∃ shim, ofParts deps exports init = .ok shim) ↔ Valid ⟨deps, exports, init⟩)
        ∧ (∀ shim, ofParts deps exports init = .ok shim → shim = ⟨deps, exports, init⟩)
        ∧ (ofParts deps exports init = .error .initWithoutExports ↔ exports = none ∧ init ≠ none)
        ∧ ∀ name, ofParts deps exports init = .error (.invalidExports name)
          ↔ exports = some name ∧ ¬IsDotted name.toList)
    ∧ (∀ text, (exportsPattern.IsMatch text ↔ IsDotted text)
      ∧ (isDottedName text = true ↔ IsDotted text))
    ∧ (∀ deps, (ofDeps deps).Valid)
    ∧ (∀ depth, Reader.Ensures (read depth) Valid)
    ∧ (∀ text shim, parse text = .ok shim → shim.Valid)
    ∧ (∀ text profile, Profile.parse text = .ok profile →
      ∀ entry ∈ profile.shims, entry.2.Valid)
    ∧ (∀ members deps exports init, Describes members deps exports init →
      (∀ depth s s', Reader.value depth s = (.ok (.object members), s') →
        read depth s = ((ofParts deps exports init).mapError refusal, s'))
      ∧ ∀ text, (Reader.value Reader.depthLimit).run text = .ok (.object members) →
        parse text = (ofParts deps exports init).mapError refusal)
    ∧ ∀ deps exports init, parse (render ⟨deps, exports, init⟩)
      = (ofParts deps exports init).mapError refusal := by
  have hread : ∀ depth, Reader.Ensures (read depth) Valid :=
    fun depth s shim s' h => (read_ensures depth s shim s' h).valid
  refine ⟨?_, ?_, valid_ofDeps, hread, ?_, ?_, ?_, fun deps exports init => parse_render _⟩
  · intro deps exports init
    refine ⟨?_, ?_, ofParts_eq_initWithoutExports_iff, fun name => ofParts_eq_invalidExports_iff⟩
    · constructor
      · rintro ⟨shim, h⟩
        obtain ⟨rfl, hvalid⟩ := ofParts_eq_ok_iff.mp h
        exact hvalid
      · intro hvalid
        exact ⟨_, ofParts_eq_ok_iff.mpr ⟨rfl, hvalid⟩⟩
    · intro shim h
      exact (ofParts_eq_ok_iff.mp h).1
  · intro text
    exact ⟨isMatch_exportsPattern_iff, isDottedName_iff⟩
  · intro text shim h
    exact (hread Reader.depthLimit).run h
  · intro text profile h entry hentry
    exact ((Profile.sound_of_parse h).fits entry hentry).valid
  · intro members deps exports init h
    exact ⟨fun depth s s' hvalue => h.read_eq hvalue, fun text hvalue => h.parse_eq hvalue⟩

/-- A shim by all ways: from its parts, in an object, and in a profile. -/
theorem shims_valid_dotted :
    let shim : Shim := ⟨["a"], some "A.$b", some "f"⟩
    ofParts ["a"] (some "A.$b") (some "f") = .ok shim
      ∧ shim = ⟨["a"], some "A.$b", some "f"⟩
      ∧ parse shim.render = .ok shim
      ∧ (∃ s', read Reader.depthLimit { rest := shim.render } = (.ok shim, s'))
      ∧ shim.Valid
      ∧ Profile.parse Profile.writtenProfile = .ok Profile.readProfile
      ∧ ∀ entry ∈ Profile.readProfile.shims, entry.2.Valid := by
  intro shim
  have hparts : ofParts ["a"] (some "A.$b") (some "f") = .ok shim := by decide +kernel
  obtain ⟨hnew, -, -, -, hparse, hprofile, hobject, -⟩ := shims_valid
  obtain ⟨-, hsame, -, -⟩ := hnew ["a"] (some "A.$b") (some "f")
  obtain ⟨hread, hload⟩ := hobject shim.members _ _ _ (describes_members shim)
  have htakes : Json.Reader.Takes (Reader.value (125 + 3)) (shim.render ++ []) []
      (.object shim.members) := value_render shim []
  rw [List.append_nil] at htakes
  obtain ⟨line, column, hvalue⟩ := htakes 1 0
  have hloaded := hload shim.render htakes.run_eq
  have hfound := hread _ _ _ hvalue
  change parse shim.render = (ofParts ["a"] (some "A.$b") (some "f")).mapError refusal at hloaded
  change read _ _ = ((ofParts ["a"] (some "A.$b") (some "f")).mapError refusal, _) at hfound
  rw [hparts] at hloaded hfound
  exact ⟨hparts, hsame shim hparts, hloaded, ⟨_, hfound⟩, hparse _ _ hloaded,
    Profile.parse_writtenProfile, hprofile _ _ Profile.parse_writtenProfile⟩

end Shim

end AmdModules
