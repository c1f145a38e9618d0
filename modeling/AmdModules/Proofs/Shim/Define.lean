import AmdModules.Proofs.Script.Escape
import AmdModules.Shim.Basic

/-!
# What an appended definition says

`Shim.define` writes the call of `define` that is appended to a script, and this module reads it
again. `Spells` is a string literal and its value, `SpellsAll` are literals separated by commas, and
`Needs` is what stands between the name of the module and its factory. None of them knows how the
text was written, and each text can be read in one way only (`Spells.unique`, `SpellsAll.unique`,
`Needs.unique`). So what is read from an appended call is the name and the ids it was written for
(`define_tells`), and calls for other names or other ids are other texts (`define_faithful`).
-/

set_option autoImplicit false

namespace AmdModules.Shim

open Script Text

/-! ## Reading -/

/-- A string literal in double quotes and its value: whatever follows the literal, it is the token
that is read, and that token ends with the closing quote. -/
structure Spells (spelling : List Char) (value : String) : Prop where
  quotes : ∃ inside, spelling = '\x22' :: (inside ++ ['\x22'])
  read : ∀ rest, readKind (spelling ++ rest) = (.string value, byteLength spelling, rest)

/-- String literals, at least one, with a comma and a blank between them. -/
inductive SpellsAll : List Char → List String → Prop
  | last {spelling : List Char} {value : String} (h : Spells spelling value) :
    SpellsAll spelling [value]
  | next {spelling others : List Char} {value : String} {values : List String}
    (h : Spells spelling value) (hothers : SpellsAll others values) :
    SpellsAll (spelling ++ (", ".toList ++ others)) (value :: values)

/-- What stands behind the name of a module and says which ids it needs: nothing if it needs none,
and an array of them otherwise. -/
inductive Needs : List Char → List String → Prop
  | nothing : Needs [] []
  | array {inside : List Char} {ids : List String} (h : SpellsAll inside ids) :
    Needs (", [".toList ++ (inside ++ "]".toList)) ids

/-- A call of `define` on a line of its own for the module `name`, which needs `ids`; `factory` is
the rest of the call. -/
def Tells (text : List Char) (name : String) (ids : List String) (factory : List Char) : Prop :=
  ∃ spelling between, Spells spelling name ∧ Needs between ids
    ∧ text = "\ndefine(".toList ++ (spelling ++ (between ++ factory))

/-- What a script with the given shim says that it needs. Without a global to answer it says
nothing. -/
def needed : Option Shim → List String
  | some { deps, exports := some _, .. } => deps
  | _ => []

/-- The factory of a module that has no value, that answers a global, or that answers what a
function makes of it. -/
def factory : Option Shim → List Char
  | some { exports := some exports, init := some init, .. } =>
    ", (function (global) \x7b\n    return function () \x7b\n        var ret, fn;\n".toList
      ++ ("fn = ".toList ++ init.toList
        ++ ";\n        ret = fn.apply(global, arguments);\n".toList)
      ++ "        return ret || global.".toList ++ exports.toList
      ++ ";\n    \x7d;\n\x7d(this)));\n".toList
  | some { exports := some exports, init := none, .. } =>
    ", (function (global) \x7b\n    return function () \x7b\n        var ret, fn;\n".toList
      ++ "        return ret || global.".toList ++ exports.toList
      ++ ";\n    \x7d;\n\x7d(this)));\n".toList
  | _ => ", function()\x7b\x7d);\n".toList

/-! ## Each text is read in one way -/

theorem Spells.unique {spelling spelling' rest rest' : List Char} {value value' : String}
    (h : Spells spelling value) (h' : Spells spelling' value')
    (heq : spelling ++ rest = spelling' ++ rest') : value = value' ∧ rest = rest' := by
  have hread := h.read rest
  rw [heq, h'.read rest'] at hread
  simp only [Prod.mk.injEq, TokenKind.string.injEq] at hread
  exact ⟨hread.1.symm, hread.2.2.symm⟩

theorem SpellsAll.unique {inside inside' rest rest' : List Char} {ids ids' : List String}
    (h : SpellsAll inside ids) (h' : SpellsAll inside' ids')
    (heq : inside ++ (']' :: rest) = inside' ++ (']' :: rest')) : ids = ids' := by
  induction h generalizing inside' ids' with
  | last h =>
    cases h' with
    | last h' => rw [(h.unique h' heq).1]
    | next h' hothers' =>
      -- one list ends where the other goes on with a comma
      rw [List.append_assoc] at heq
      exact absurd (h.unique h' heq).2 (by simp)
  | next h hothers ih =>
    simp only [List.append_assoc] at heq
    cases h' with
    | last h' => exact absurd (h.unique h' heq).2 (by simp)
    | next h' hothers' =>
      simp only [List.append_assoc] at heq
      obtain ⟨rfl, hrest⟩ := h.unique h' heq
      rw [ih hothers' (by simpa using hrest)]

/-- The factory does not start like an array. -/
def Opens (factory : List Char) : Prop :=
  ∃ c rest, factory = ", ".toList ++ (c :: rest) ∧ c ≠ '['

theorem Needs.unique {between between' rest rest' : List Char} {ids ids' : List String}
    (h : Needs between ids) (h' : Needs between' ids') (hrest : Opens rest) (hrest' : Opens rest')
    (heq : between ++ rest = between' ++ rest') : ids = ids' := by
  have hclash {inside after rest : List Char} (hrest : Opens rest) :
      rest ≠ ", [".toList ++ (inside ++ "]".toList) ++ after := by
    obtain ⟨c, others, rfl, hc⟩ := hrest
    simp [hc]
  cases h with
  | nothing =>
    cases h' with
    | nothing => rfl
    | array => exact absurd heq (hclash hrest)
  | array h =>
    cases h' with
    | nothing => exact absurd heq.symm (hclash hrest')
    | array h' => exact h.unique h' (by simpa using heq)

theorem opens_factory (shim : Option Shim) : Opens (factory shim) := by
  unfold factory
  split
  · exact ⟨'(', _, rfl, by decide⟩
  · exact ⟨'(', _, rfl, by decide⟩
  · exact ⟨'f', _, rfl, by decide⟩

theorem Tells.unique {text factory factory' : List Char} {name name' : String}
    {ids ids' : List String} (h : Tells text name ids factory)
    (h' : Tells text name' ids' factory') (hopens : Opens factory) (hopens' : Opens factory') :
    name = name' ∧ ids = ids' := by
  obtain ⟨spelling, between, hname, hneeds, rfl⟩ := h
  obtain ⟨spelling', between', hname', hneeds', heq⟩ := h'
  obtain ⟨rfl, hrest⟩ := hname.unique hname' (List.append_cancel_left heq)
  exact ⟨rfl, hneeds.unique hneeds' hopens hopens' hrest⟩

/-! ## What is written -/

theorem spells_literal (text : String) : Spells (literal text) text := by
  refine ⟨⟨_, rfl⟩, fun rest => ?_⟩
  have hread := @readKind_escape '\x22' (.inr rfl) text.toList rest
  rw [String.ofList_toList] at hread
  simpa [literal] using hread

/-- A quote, ids with the quotes between them, and a quote are literals with commas between
them. -/
theorem spellsAll_joinWith (dep : String) (deps : List String) :
    SpellsAll
      ('\x22' :: (joinWith "\", \"".toList
        ((dep :: deps).map fun dep => escape '\x22' dep.toList) ++ ['\x22']))
      (dep :: deps) := by
  induction deps generalizing dep with
  | nil => exact .last (spells_literal dep)
  | cons other deps ih =>
    simpa [joinWith, literal] using SpellsAll.next (spells_literal dep) (ih other)

theorem needs_depsText (deps : List String) : Needs (depsText deps) deps := by
  cases deps with
  | nil => exact .nothing
  | cons dep deps => simpa [depsText] using Needs.array (spellsAll_joinWith dep deps)

/-- The factory of each case is the one that is written. -/
theorem define_eq (name : String) (shim : Option Shim) :
    define name shim
      = "\ndefine(".toList ++ (literal name ++ (depsText (needed shim) ++ factory shim)) := by
  match shim with
  | none | some { exports := none, .. } => exact List.append_assoc _ _ _
  | some { deps, exports := some exports, init := none } =>
    have hfactory : factoryText exports none = factory (some { deps, exports }) :=
      congrArg (fun opening : List Char => opening ++ "        return ret || global.".toList
        ++ exports.toList ++ ";\n    \x7d;\n\x7d(this)));\n".toList) (List.append_nil _)
    exact hfactory ▸ List.append_assoc _ _ _
  | some { deps, exports := some exports, init := some init } =>
    exact List.append_assoc _ _ _

/-- **An appended call says what it was written for.** -/
theorem define_tells (name : String) (shim : Option Shim) :
    Tells (define name shim) name (needed shim) (factory shim) :=
  ⟨literal name, depsText (needed shim), spells_literal name, needs_depsText _,
    define_eq name shim⟩

/-- **The appended call is faithful to its name and its ids.** It is read as the name of the module,
the ids if there is a global to answer and something is needed, and the factory of the case. So two
calls with different names are different texts, and so are two that answer a global and need
different ids. -/
theorem define_faithful :
    (∀ (name : String) (shim : Option Shim),
        Tells (define name shim) name (needed shim) (factory shim))
      ∧ (∀ (name name' : String) (shim shim' : Option Shim), name ≠ name' →
        define name shim ≠ define name' shim')
      ∧ ∀ (name : String) (shim shim' : Shim), shim.exports.isSome = true →
        shim'.exports.isSome = true → shim.deps ≠ shim'.deps →
        define name (some shim) ≠ define name (some shim') := by
  have hunique (name name' : String) (shim shim' : Option Shim)
      (heq : define name shim = define name' shim') :
      name = name' ∧ needed shim = needed shim' :=
    (define_tells name shim).unique (heq ▸ define_tells name' shim') (opens_factory shim)
      (opens_factory shim')
  have hneeded {shim : Shim} (h : shim.exports.isSome = true) : needed (some shim) = shim.deps := by
    obtain ⟨deps, _ | exports, init⟩ := shim
    · cases h
    · rfl
  refine ⟨define_tells, fun name name' shim shim' hne heq => hne (hunique _ _ _ _ heq).1, ?_⟩
  intro name shim shim' h h' hne heq
  have hids := (hunique _ _ _ _ heq).2
  rw [hneeded h, hneeded h'] at hids
  exact hne hids

/-- A shim whose ids hold what separates ids. -/
def entangledShim : Shim where
  deps := ["a\", \"b", "a\", \"b", "\\"]
  exports := some "Lib.x"

theorem define_faithful_entangled :
    Tells (define "we\"ird\n" (some entangledShim)) "we\"ird\n" ["a\", \"b", "a\", \"b", "\\"]
        (factory (some entangledShim))
      ∧ define "m" (some entangledShim)
        ≠ define "m" (some { entangledShim with deps := ["a", "b", "a", "b", "\\"] }) := by
  obtain ⟨htells, -, hdeps⟩ := define_faithful
  exact ⟨htells _ _, hdeps "m" _ _ rfl rfl (by decide)⟩

end AmdModules.Shim
