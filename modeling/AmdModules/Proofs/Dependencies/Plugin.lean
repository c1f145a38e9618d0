import AmdModules.Proofs.Module.LifeCycle
import Mathlib.Data.List.Induction

/-!
# Plugins in front of their resources

A resource `plugin!resource` is loaded by its plugin, so the plugin has to come first. The ids that
the text of a module names keep to that: each of them brings its plugin along
(`pluginFirst_ofTree`). The ids of a shim are added as they are written, and bring nothing along.
So whether a plugin comes first in all dependencies of a module is up to the shim, and
`findDependencies_pluginFirst_iff` says exactly when it does; `resource_unaccompanied` is a shim for
which it does not.
-/

set_option autoImplicit false

namespace AmdModules

open Script (Node)

namespace Dependencies

/-- The plugin of an id, if it has one, is among the given ids. -/
def Introduced (found : List String) (id : String) : Prop :=
  ∀ plugin resource, ModuleId.plugin? id.toList = some (plugin, resource) →
    String.ofList plugin ∈ found

/-- Every id that has a plugin stands behind it. -/
def PluginFirst (ids : List String) : Prop :=
  ∀ before id after, ids = before ++ id :: after → Introduced before id

theorem Introduced.mono {found found' : List String} {id : String} (h : Introduced found id)
    (hsub : found ⊆ found') : Introduced found' id :=
  fun plugin resource hplugin => hsub (h plugin resource hplugin)

theorem PluginFirst.nil : PluginFirst [] := by
  intro before id after h
  simp at h

/-- An id in a list with one more at its end is that one or stands before it. -/
theorem append_singleton_split {ids before after : List String} {last id : String}
    (h : ids ++ [last] = before ++ id :: after) :
    (before = ids ∧ id = last) ∨ ∃ after', ids = before ++ id :: after' := by
  rcases List.eq_nil_or_concat after with rfl | ⟨after', other, rfl⟩
  · obtain ⟨hids, hlast⟩ := List.append_inj' h rfl
    exact .inl ⟨hids.symm, (List.singleton_inj.mp hlast).symm⟩
  · have hsplit : ids ++ [last] = (before ++ id :: after') ++ [other] := by simpa using h
    exact .inr ⟨after', (List.append_inj' hsplit rfl).1⟩

theorem pluginFirst_append_singleton (found : List String) (last : String) :
    PluginFirst (found ++ [last]) ↔ PluginFirst found ∧ Introduced found last := by
  constructor
  · intro h
    refine ⟨fun before id after heq => h before id (after ++ [last]) (by simp [heq]), ?_⟩
    exact h found last [] rfl
  · rintro ⟨hfound, hlast⟩ before id after heq
    rcases append_singleton_split heq with ⟨rfl, rfl⟩ | ⟨after', heq⟩
    · exact hlast
    · exact hfound before id after' heq

/-- One id more: it is there already, or its plugin is. -/
theorem pluginFirst_add (found : List String) (id : String) :
    PluginFirst (add found id) ↔ PluginFirst found ∧ (id ∈ found ∨ Introduced found id) := by
  by_cases hid : id ∈ found
  · have hadd : add found id = found := by simp [add, hid]
    simp [hadd, hid]
  · have hadd : add found id = found ++ [id] := by simp [add, hid]
    rw [hadd, pluginFirst_append_singleton]
    simp [hid]

theorem mem_addAll {found ids : List String} {id : String} :
    id ∈ addAll found ids ↔ id ∈ found ++ ids := by
  rw [addAll_eq]
  by_cases hid : id ∈ found <;> simp [hid]

/-- **Ids that are added keep plugins first** exactly when each of them was met before or comes
behind its plugin. -/
theorem pluginFirst_addAll (found ids : List String) :
    PluginFirst (addAll found ids)
      ↔ PluginFirst found ∧ ∀ before id after, ids = before ++ id :: after →
        id ∈ found ++ before ∨ Introduced (found ++ before) id := by
  -- from the last id to the first: what stands in front of it has been added already
  induction ids using List.reverseRecOn with
  | nil => simp [addAll]
  | append_singleton ids last ih =>
    have hlast : addAll found (ids ++ [last]) = add (addAll found ids) last := by
      rw [addAll_append]
      rfl
    have hintroduced : Introduced (addAll found ids) last ↔ Introduced (found ++ ids) last := by
      simp only [Introduced, mem_addAll]
    rw [hlast, pluginFirst_add, ih, hintroduced, mem_addAll]
    constructor
    · rintro ⟨⟨hfound, hids⟩, hnew⟩
      refine ⟨hfound, fun before id after heq => ?_⟩
      rcases append_singleton_split heq with ⟨rfl, rfl⟩ | ⟨after', heq⟩
      · exact hnew
      · exact hids before id after' heq
    · rintro ⟨hfound, hids⟩
      exact ⟨⟨hfound, fun before id after heq => hids before id (after ++ [last]) (by simp [heq])⟩,
        hids ids last [] rfl⟩

/-- What stands in front of the first separator has none. -/
theorem splitFirst?_takeWhile {separator : Char} {cs before after : List Char}
    (h : Text.splitFirst? separator cs = some (before, after)) :
    before = cs.takeWhile (· != separator) := by
  have hsplit := splitFirst?_eq separator cs
  rw [h] at hsplit
  split at hsplit
  · exact Option.some.inj hsplit
  · cases hsplit

/-- A plugin has no plugin of its own. -/
theorem introduced_plugin {id plugin resource : List Char}
    (h : ModuleId.plugin? id = some (plugin, resource)) (found : List String) :
    Introduced found (String.ofList plugin) := by
  have hplugin : plugin = id.takeWhile (· != '!') := by
    unfold ModuleId.plugin? at h
    split at h
    · rename_i hsplit
      obtain ⟨rfl, rfl⟩ := Prod.mk.inj (Option.some.inj h)
      exact splitFirst?_takeWhile hsplit
    · cases h
  have hmark : '!' ∉ plugin := by
    intro hmem
    rw [hplugin] at hmem
    simpa using List.all_eq_true.mp List.all_takeWhile _ hmem
  have hnone : Text.splitFirst? '!' plugin = none := by
    simpa [hmark] using splitFirst?_eq '!' plugin
  intro inner rest hinner
  simp [ModuleId.plugin?, hnone] at hinner

/-- An id brings its plugin along. -/
theorem pluginFirst_withPlugin {found : List String} (h : PluginFirst found) (id : String) :
    PluginFirst (addAll found (withPlugin id)) := by
  have hids : ∀ before other after, withPlugin id = before ++ other :: after →
      Introduced (found ++ before) other := by
    intro before other after heq
    unfold withPlugin at heq
    split at heq
    · rename_i plugin resource hplugin
      match before, heq with
      | [], heq =>
        obtain ⟨rfl, -⟩ := List.cons.inj heq
        exact introduced_plugin hplugin _
      | [first], heq =>
        simp only [List.singleton_append, List.cons.injEq] at heq
        obtain ⟨rfl, rfl, -⟩ := heq
        intro plugin' resource' hplugin'
        rw [hplugin] at hplugin'
        obtain ⟨rfl, -⟩ := Prod.mk.inj (Option.some.inj hplugin')
        simp
      | _ :: _ :: _, heq => simp at heq
    · rename_i hplugin
      match before, heq with
      | [], heq =>
        obtain ⟨rfl, -⟩ := List.cons.inj heq
        intro plugin' resource' hplugin'
        rw [hplugin] at hplugin'
        cases hplugin'
      | _ :: _, heq => simp at heq
  exact (pluginFirst_addAll found _).mpr
    ⟨h, fun before other after heq => .inr (hids before other after heq)⟩

theorem pluginFirst_flatMap {found : List String} (h : PluginFirst found) (ids : List String) :
    PluginFirst (addAll found (ids.flatMap withPlugin)) := by
  induction ids generalizing found with
  | nil => exact h
  | cons id ids ih =>
    rw [List.flatMap_cons, addAll_append]
    exact ih (pluginFirst_withPlugin h id)

/-- **The ids that the text of a module names have their plugins first.** -/
theorem pluginFirst_ofTree (nested : Bool) (root : Node) : PluginFirst (ofTree nested root) := by
  have hwalk : ofTree nested root
      = addAll [] ((located [] root).flatMap (idsAt (slotAdmits nested))) := by
    have hstanding : walk nested { } root = _ := walk_standing nested [] [] root
    simp only [ofTree, hstanding, standing]
  have hplaces : ∀ (places : List (List Node × Node)) (found : List String), PluginFirst found →
      PluginFirst (addAll found (places.flatMap (idsAt (slotAdmits nested)))) := by
    intro places
    induction places with
    | nil => exact fun _ hfound => hfound
    | cons place places ih =>
      intro found hfound
      rw [List.flatMap_cons, addAll_append]
      refine ih _ ?_
      -- a place adds the ids of its call, or none
      unfold idsAt
      split
      · split
        · rw [← show withPlugin = contributions from funext withPlugin_eq]
          exact pluginFirst_flatMap hfound _
        · exact hfound
      · exact hfound
  rw [hwalk]
  exact hplaces _ _ .nil

end Dependencies

/-- What the shim of a module needs. -/
def Profile.neededBy (profile : Profile) (name : String) : List String :=
  ((profile.shim? name).map (·.deps)).getD []

/-- A skipped module has no dependencies; any other has those its tree names and then those of its
shim. -/
theorem Module.findDependencies_cases {σ : Type} {service : Service σ} {profile : Profile}
    {m : Module} {s : σ} {found : List String}
    (h : (m.findDependencies service profile s).value = .ok found) :
    found = [] ∨ ∃ root, found = Dependencies.addAll
      (Dependencies.ofTree profile.findNestedDependencies root) (profile.neededBy m.name) := by
  unfold findDependencies at h
  split at h
  · exact .inl (Except.ok.inj h).symm
  · split at h
    · exact .inl (Except.ok.inj h).symm
    · rw [Traced.bind_value] at h
      cases hanswer : (service ⟨m.specifier, m.content, MediaType.ofUrl m.specifier⟩ s).value with
      | error e =>
        rw [hanswer] at h
        cases h
      | ok source =>
        rw [hanswer] at h
        exact .inr ⟨source.program.root, (Except.ok.inj h).symm⟩

/-- **Plugins come first among the dependencies of a module exactly as far as its shim sees to it.**
The dependencies are what the text names, with every plugin first, and behind it what the shim
needs, which a skipped module is not asked for. Over all of them plugins come first exactly when
each id of the shim has been met before or comes behind its plugin. -/
theorem Module.findDependencies_pluginFirst_iff {σ : Type} (service : Service σ)
    (profile : Profile) (m : Module) (s : σ) {found : List String}
    (h : (m.findDependencies service profile s).value = .ok found) :
    ∃ named needed, found = Dependencies.addAll named needed
      ∧ (needed = [] ∨ needed = profile.neededBy m.name)
      ∧ Dependencies.PluginFirst named
      ∧ (Dependencies.PluginFirst found
        ↔ ∀ before id after, needed = before ++ id :: after →
          id ∈ named ++ before ∨ Dependencies.Introduced (named ++ before) id) := by
  obtain rfl | ⟨root, rfl⟩ := findDependencies_cases h
  · exact ⟨[], [], rfl, .inl rfl, .nil, by simp [Dependencies.PluginFirst.nil]⟩
  · have hnamed := Dependencies.pluginFirst_ofTree profile.findNestedDependencies root
    refine ⟨_, _, rfl, .inr rfl, hnamed, ?_⟩
    rw [Dependencies.pluginFirst_addAll]
    exact and_iff_right hnamed

/-- A profile in which two scripts need resources. -/
def resourcesProfile : Profile where
  shims := [("main", .ofDeps ["p!s", "t", "t!u"]), ("m", .ofDeps ["text!page.html"])]

/-- The plugin of `p!s` is named in the text, that of `t!u` by the shim itself. -/
theorem findDependencies_pluginFirst_asking :
    (askingModule.findDependencies Service.direct resourcesProfile ()).value
        = .ok ["p", "p!r", "a", "p!s", "t", "t!u"]
      ∧ ∃ named needed, ["p", "p!r", "a", "p!s", "t", "t!u"] = Dependencies.addAll named needed
        ∧ (needed = [] ∨ needed = ["p!s", "t", "t!u"]) ∧ Dependencies.PluginFirst named := by
  have hfound : (askingModule.findDependencies Service.direct resourcesProfile ()).value
      = .ok ["p", "p!r", "a", "p!s", "t", "t!u"] := by decide +kernel
  obtain ⟨named, needed, heq, hneeded, hnamed, -⟩ :=
    Module.findDependencies_pluginFirst_iff Service.direct resourcesProfile askingModule () hfound
  exact ⟨hfound, named, needed, heq, hneeded, hnamed⟩

/-- An empty statement, which names nothing. -/
def silentModule : Module where
  name := "m"
  specifier := ModuleId.fallback
  content := [';']

/-- The resource of a shim comes without its plugin. -/
theorem resource_unaccompanied :
    (silentModule.findDependencies Service.direct resourcesProfile ()).value
        = .ok ["text!page.html"]
      ∧ ¬ Dependencies.PluginFirst ["text!page.html"] := by
  refine ⟨by decide +kernel, fun h => ?_⟩
  have hplugin := h [] "text!page.html" [] rfl "text".toList "page.html".toList (by decide)
  cases hplugin

end AmdModules
