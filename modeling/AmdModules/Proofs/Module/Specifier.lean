import AmdModules.Module.Analyze
import AmdModules.Proofs.Url.Plain

/-!
# Where plain ids lead

A plain id is a plain path: nothing in it is read as a scheme, a drive, a plugin or a step up. So
under a base that ends with a slash it leads to the file of its own path with the extension `.js`,
which is JavaScript and therefore searched for dependencies (`resolve_plain`). Two plain ids lead to
one file exactly when they are equal, or when the extension that one of them is given makes it the
other; an extension is not given twice, so `a.js` and `a.js.js` lead to different files
(`resolve_twoExtensions`).
-/

set_option autoImplicit false

namespace AmdModules

/-! ## The type of a file that ends with `.js` -/

/-- The extension of a script. -/
def scriptExtension : List Char :=
  ".js".toList

namespace MediaType

theorem ofFileName_script (name : List Char) :
    ofFileName (name ++ scriptExtension) = .javaScript := by
  have hpieces : Text.splitOn '.' (name ++ scriptExtension)
      = Text.splitOn '.' name ++ [['j', 's']] := Text.splitOn_append_cons name ['j', 's']
  have hsome : 0 < (Text.splitOn '.' name).length := by
    rw [Text.splitOn_eq]
    exact List.length_pos_iff.mpr (List.splitOn_ne_nil _ _)
  have hshort : ¬ (Text.splitOn '.' name ++ [['j', 's']]).length < 2 := by
    rw [List.length_append, List.length_singleton]
    omega
  simp only [ofFileName, hpieces, if_neg hshort, List.getLastD_concat]
  rfl

/-- The extension ends the file name when it ends the path. -/
theorem fileName_script {u : Url} {before : List Char} (h : u.path = before ++ scriptExtension) :
    fileName u = Url.lastSegment before ++ scriptExtension := by
  simp [fileName, h, scriptExtension, Url.lastSegment]

/-- What a path with the extension of a script names is JavaScript. -/
theorem ofUrl_script {u : Url} (hscheme : u.scheme ≠ "data".toList) {before : List Char}
    (h : u.path = before ++ scriptExtension) : ofUrl u = .javaScript := by
  rw [ofUrl, if_neg hscheme, fileName_script h, ofFileName_script]

end MediaType

namespace Module

/-- A module that is not skipped for the type of its specifier. Without a text it is skipped for
that. With one, the service is asked for its tree: nothing but what the service reports is reported,
and nothing but its refusal is an error. -/
structure Searched (m : Module) {σ : Type} (service : Service σ) (profile : Profile) (s : σ) :
    Prop where
  skips : m.content = [] → (m.findDependencies service profile s).events = [.skipsEmpty m.name]
  asks : m.content ≠ [] → (m.findDependencies service profile s).state
    = (service ⟨m.specifier, m.content, .javaScript⟩ s).state
  reports : m.content ≠ [] → (m.findDependencies service profile s).events
    = (service ⟨m.specifier, m.content, .javaScript⟩ s).events
  refuses : m.content ≠ [] → ∀ e, (m.findDependencies service profile s).value = .error e
    ↔ (service ⟨m.specifier, m.content, .javaScript⟩ s).value = .error e

/-- What is left of the search for dependencies when the specifier names JavaScript. -/
theorem findDependencies_script {σ : Type} {m : Module}
    (h : MediaType.ofUrl m.specifier = .javaScript) (hne : m.content ≠ []) (service : Service σ)
    (profile : Profile) (s : σ) :
    m.findDependencies service profile s
      = { value := (service ⟨m.specifier, m.content, .javaScript⟩ s).value.map fun source =>
            Dependencies.addAll
              (Dependencies.ofTree profile.findNestedDependencies source.program.root)
              (((profile.shim? m.name).map (·.deps)).getD [])
          state := (service ⟨m.specifier, m.content, .javaScript⟩ s).state
          events := (service ⟨m.specifier, m.content, .javaScript⟩ s).events } := by
  have hempty : m.content.isEmpty = false := List.isEmpty_eq_false_iff.mpr hne
  simp only [findDependencies, h, hempty, bne_self_eq_false, Bool.false_eq_true, if_false]
  cases hvalue : (service ⟨m.specifier, m.content, .javaScript⟩ s).value with
  | error e => simp [Bind.bind, hvalue, Except.map, Pure.pure]
  | ok source => simp [Bind.bind, hvalue, Except.map, Pure.pure]

theorem searched_of_script {σ : Type} {m : Module}
    (h : MediaType.ofUrl m.specifier = .javaScript) (service : Service σ) (profile : Profile)
    (s : σ) : m.Searched service profile s where
  skips hempty := by
    rw [findDependencies, hempty]
    rfl
  asks hne := by rw [findDependencies_script h hne]
  reports hne := by rw [findDependencies_script h hne]
  refuses hne e := by
    rw [findDependencies_script h hne]
    cases (service ⟨m.specifier, m.content, .javaScript⟩ s).value with
    | error e' => simp [Except.map]
    | ok source => simp [Except.map]

end Module

namespace ModuleId

/-! ## The source of a plain id -/

/-- Whether an id has the extension of a script. -/
def HasExtension (id : String) : Prop :=
  scriptExtension <:+ id.toList

instance (id : String) : Decidable (HasExtension id) :=
  inferInstanceAs (Decidable (_ <:+ _))

/-- Ids of one file: equal, or the extension that one of them is given makes it the other. -/
def SameFile (id other : String) : Prop :=
  id = other ∨ (¬ HasExtension id ∧ other = id ++ ".js")
    ∨ (¬ HasExtension other ∧ id = other ++ ".js")

/-- A plain id has no plugin. -/
theorem plugin?_plain {id : List Char} (h : Url.IsPlainPath id) : plugin? id = none := by
  have hmark : '!' ∉ id := fun hmem => h.ne_of_mem hmem (by decide) (by decide) rfl
  rw [plugin?, Text.splitFirst?_eq_none hmark]

theorem sourcePath_plain {id : String} (h : Url.IsPlainPath id.toList) :
    sourcePath id.toList
      = id.toList ++ if HasExtension id then [] else scriptExtension := by
  rw [sourcePath, plugin?_plain h]
  change (if Text.endsWith scriptExtension id.toList then _ else _) = _
  by_cases hextension : HasExtension id
  · have hends : Text.endsWith scriptExtension id.toList = true :=
      List.isSuffixOf_iff_suffix.mpr hextension
    rw [if_pos hends, if_pos hextension, List.append_nil]
  · have hends : Text.endsWith scriptExtension id.toList ≠ true :=
      mt List.isSuffixOf_iff_suffix.mp hextension
    rw [if_neg hends, if_neg hextension]
    rfl

/-- The source of a plain id is a plain path. -/
theorem isPlainPath_sourcePath {id : String} (h : Url.IsPlainPath id.toList) :
    Url.IsPlainPath (sourcePath id.toList) := by
  rw [sourcePath_plain h]
  split
  · rwa [List.append_nil]
  · exact h.append (by decide) (by decide)

/-- The source of a plain id has the extension. -/
theorem exists_sourcePath_eq {id : String} (h : Url.IsPlainPath id.toList) :
    ∃ before, sourcePath id.toList = before ++ scriptExtension := by
  rw [sourcePath_plain h]
  by_cases hextension : HasExtension id
  · obtain ⟨before, hbefore⟩ := hextension
    exact ⟨before, by rw [if_pos ⟨before, hbefore⟩, List.append_nil, hbefore]⟩
  · exact ⟨id.toList, by rw [if_neg hextension]⟩

theorem hasExtension_append (id : String) : HasExtension (id ++ ".js") :=
  ⟨id.toList, by simp [scriptExtension]⟩

/-- An id that is the other one with the extension is its source. -/
theorem toList_eq_append_iff {id other : String} :
    id.toList = other.toList ++ scriptExtension ↔ id = other ++ ".js" := by
  rw [← String.toList_inj, String.toList_append]
  rfl

theorem sourcePath_eq_iff {id other : String} (h : Url.IsPlainPath id.toList)
    (hother : Url.IsPlainPath other.toList) :
    sourcePath id.toList = sourcePath other.toList ↔ SameFile id other := by
  rw [sourcePath_plain h, sourcePath_plain hother]
  constructor
  · intro heq
    -- the cases say which of the two is given the extension
    by_cases hid : HasExtension id
    · rw [if_pos hid, List.append_nil] at heq
      by_cases hextension : HasExtension other
      · rw [if_pos hextension, List.append_nil] at heq
        exact .inl (String.toList_inj.mp heq)
      · rw [if_neg hextension] at heq
        exact .inr (.inr ⟨hextension, toList_eq_append_iff.mp heq⟩)
    · rw [if_neg hid] at heq
      by_cases hextension : HasExtension other
      · rw [if_pos hextension, List.append_nil] at heq
        exact .inr (.inl ⟨hid, toList_eq_append_iff.mp heq.symm⟩)
      · rw [if_neg hextension] at heq
        exact .inl (String.toList_inj.mp (List.append_cancel_right heq))
  · rintro (rfl | ⟨hid, rfl⟩ | ⟨hother, rfl⟩)
    · rfl
    · rw [if_neg hid, if_pos (hasExtension_append id), List.append_nil]
      exact (toList_eq_append_iff.mpr rfl).symm
    · rw [if_neg hother, if_pos (hasExtension_append other), List.append_nil]
      exact toList_eq_append_iff.mpr rfl

/-! ## Where plain ids lead -/

/-- A URL without what stands behind its path. -/
def bare (base : Url) : Url :=
  { base with query := none, fragment := none }

theorem resolve_eq {base : Url} (hbase : base.Settled)
    (hspecial : (Url.SchemeKind.ofScheme base.scheme).isSpecial = true)
    (hslash : Url.endsWithSlash base.path = true) {id : String} (h : Url.IsPlainPath id.toList) :
    resolve base id = .ok { bare base with path := base.path ++ sourcePath id.toList } := by
  rw [resolve, Url.join_plain hbase hspecial hslash (isPlainPath_sourcePath h)]
  rfl

/-- With a machine in the URL nothing but the path depends on the path. -/
theorem render_bare {base : Url} (h : base.authority.isSome = true) (path : List Char) :
    Url.render { bare base with path := base.path ++ path } = (bare base).render ++ path := by
  obtain ⟨authority, hauthority⟩ := Option.isSome_iff_exists.mp h
  simp [Url.render, bare, hauthority, Url.marked]

/-- A specifier is written as the base and, behind it, the source. -/
theorem toString_source {base : Url} (h : base.authority.isSome = true) (source : List Char) :
    toString ({ bare base with path := base.path ++ source } : Url)
      = toString (bare base) ++ String.ofList source := by
  change String.ofList _ = String.ofList _ ++ _
  rw [render_bare h, String.ofList_append]

/-- **A plain id leads to its own file.** Under a `file`, `http` or `https` base whose path ends
with a slash it has a specifier: the base without query and fragment, then the id, then `.js` unless
that is there. What the specifier names is JavaScript, so no module there is skipped for its type.
And another plain id has the same specifier exactly when it is the same, or when the extension that
one of them is given makes it the other. -/
theorem resolve_plain {base : Url} (hbase : base.Had)
    (hscheme : base.scheme ∈ ["file", "http", "https"].map String.toList)
    (hslash : Url.endsWithSlash base.path = true) {id : String}
    (hid : Url.IsPlainPath id.toList) :
    ∃ url, resolve base id = .ok url
      ∧ toString url = toString (bare base) ++ id ++ (if HasExtension id then "" else ".js")
      ∧ MediaType.ofUrl url = .javaScript
      ∧ (∀ (σ : Type) (service : Service σ) (profile : Profile) (m : Module) (s : σ),
        m.specifier = url → m.Searched service profile s)
      ∧ ∀ other : String, Url.IsPlainPath other.toList →
        ∃ url', resolve base other = .ok url'
          ∧ (url = url' ↔ SameFile id other)
          ∧ (toString url = toString url' ↔ SameFile id other) := by
  have hspecial : (Url.SchemeKind.ofScheme base.scheme).isSpecial = true :=
    (show ∀ scheme ∈ ["file", "http", "https"].map String.toList,
      (Url.SchemeKind.ofScheme scheme).isSpecial = true by decide) _ hscheme
  have hdata : base.scheme ≠ "data".toList :=
    (show ∀ scheme ∈ ["file", "http", "https"].map String.toList, scheme ≠ "data".toList
      by decide) _ hscheme
  have hmachine : base.authority.isSome = true := hbase.settled.authority hspecial
  have hsource {id : String} (hid : Url.IsPlainPath id.toList) :=
    resolve_eq hbase.settled hspecial hslash hid
  have hscript : MediaType.ofUrl { bare base with path := base.path ++ sourcePath id.toList }
      = .javaScript := by
    obtain ⟨before, hbefore⟩ := exists_sourcePath_eq hid
    refine @MediaType.ofUrl_script _ hdata (base.path ++ before) ?_
    rw [hbefore, List.append_assoc]
  refine ⟨_, hsource hid, ?_, hscript, ?_, fun other hother => ⟨_, hsource hother, ?_, ?_⟩⟩
  · rw [toString_source hmachine, sourcePath_plain hid, String.ofList_append, String.ofList_toList,
      String.append_assoc]
    split
    · rfl
    · rfl
  · rintro σ service profile m s hm
    exact Module.searched_of_script (hm ▸ hscript) service profile s
  · rw [← sourcePath_eq_iff hid hother]
    refine ⟨fun heq => ?_, fun heq => by rw [heq]⟩
    exact List.append_cancel_left (congrArg Url.path heq)
  · rw [← sourcePath_eq_iff hid hother, toString_source hmachine, toString_source hmachine]
    refine ⟨fun heq => ?_, fun heq => by rw [heq]⟩
    have htexts := congrArg String.toList heq
    rw [String.toList_append, String.toList_append, String.toList_ofList,
      String.toList_ofList] at htexts
    exact List.append_cancel_left htexts

/-- Where the modules of a site live: with a user, a port and a query. -/
def siteBase : Url where
  scheme := "https".toList
  authority := some { username := ['u'], host := .name ['h'], port := some 81 }
  path := "/app/".toList
  query := some ['q']

theorem had_siteBase : siteBase.Had :=
  @Url.Had.parse "https://u@h:81/app/?q".toList _ (by rfl)

/-- With and without its extension an id leads to one file. -/
theorem resolve_plain_site :
    siteBase.Had ∧ Url.IsPlainPath "lib/a.b-c_1".toList ∧ Url.IsPlainPath "lib/a.b-c_1.js".toList
      ∧ ∃ url, resolve siteBase "lib/a.b-c_1" = .ok url
        ∧ toString url = "https://u@h:81/app/lib/a.b-c_1.js"
        ∧ MediaType.ofUrl url = .javaScript
        ∧ ∃ url', resolve siteBase "lib/a.b-c_1.js" = .ok url' ∧ url = url' := by
  have hid : Url.IsPlainPath "lib/a.b-c_1".toList := by decide
  have hother : Url.IsPlainPath "lib/a.b-c_1.js".toList := by decide
  obtain ⟨url, hurl, htext, hscript, -, hothers⟩ :=
    resolve_plain had_siteBase (by decide) (by decide) hid
  obtain ⟨url', hurl', hsame, -⟩ := hothers "lib/a.b-c_1.js" hother
  refine ⟨had_siteBase, hid, hother, url, hurl, ?_, hscript, url', hurl', ?_⟩
  · rw [htext]
    rfl
  · exact hsame.mpr (.inr (.inl ⟨by decide, by decide⟩))

/-- An extension is not given twice: here the ids differ by one, and their specifiers too. -/
theorem resolve_twoExtensions :
    defaultBase.Had ∧ defaultBase.scheme ∈ ["file", "http", "https"].map String.toList
      ∧ Url.endsWithSlash defaultBase.path = true
      ∧ Url.IsPlainPath "a.js".toList ∧ Url.IsPlainPath "a.js.js".toList
      ∧ ¬ (resolve defaultBase "a.js" = resolve defaultBase "a.js.js"
        ↔ "a.js" = "a.js.js" ∨ "a.js.js" = "a.js" ++ ".js" ∨ "a.js" = "a.js.js" ++ ".js") := by
  have hbase : defaultBase.Had := @Url.Had.parse "file:///".toList _ (by rfl)
  refine ⟨hbase, by decide, by decide, by decide, by decide, fun hsame => ?_⟩
  have heq : resolve defaultBase "a.js" = resolve defaultBase "a.js.js" :=
    hsame.mpr (.inr (.inl (by decide)))
  exact absurd heq (by decide)

end ModuleId

end AmdModules
