import AmdModules.Normalize.Text

/-!
# What a repair does to a call

A call of `define` that lacks something gets literals put among its arguments; `repaired` is the
list of arguments that results. Whether an array has to be put in is decided by where one stands,
but the ids of a call are read from its first array wherever that stands. So a repair keeps the ids
of a call whose array stands where it belongs, and hides those of any other array behind the empty
one it puts in front (`dependencyIds_repaired`).
-/

set_option autoImplicit false

namespace AmdModules.Loader

open Script (Node)

/-- The arguments of a call of `define` with the given literals put in. -/
def Repair.apply (id array : Node) : Repair → List Node → List Node
  | .id true, arguments => id :: array :: arguments
  | .id false, arguments => id :: arguments
  | .dependencies, [] => []
  | .dependencies, first :: others => first :: array :: others

/-- The arguments of a call of `define` in the module `name` once it lacks nothing. What is put in
stands at `place`. -/
def repaired (name : String) (place : Span) (arguments : List Node) : List Node :=
  match repair? arguments with
  | some repair => repair.apply (.mk (.string name) place []) (.mk .array place []) arguments
  | none => arguments

/-! ## The ids of a call -/

theorem dependencyIds_cons_of_isArray {n : Node} (h : isArray n = true) (ns : List Node) :
    dependencyIds (n :: ns) = n.parts.filterMap stringValue? := by
  simp [dependencyIds, h]

theorem dependencyIds_cons_of_not_isArray {n : Node} (h : isArray n = false) (ns : List Node) :
    dependencyIds (n :: ns) = dependencyIds ns := by
  simp [dependencyIds, h]

/-- A string is no array. -/
theorem isArray_of_isString {n : Node} (h : isString n = true) : isArray n = false := by
  unfold isString stringValue? at h
  split at h
  · rename_i value hkind
    simp [isArray, hkind]
  · cases h

/-- An empty array in front hides all others. -/
theorem dependencyIds_emptyArray (place : Span) (ns : List Node) :
    dependencyIds (.mk .array place [] :: ns) = [] :=
  dependencyIds_cons_of_isArray rfl ns

theorem dependencyIds_string (name : String) (place : Span) (ns : List Node) :
    dependencyIds (.mk (.string name) place [] :: ns) = dependencyIds ns :=
  dependencyIds_cons_of_not_isArray rfl ns

/-! ## The ids of a repaired call -/

/-- Only a call that starts with a string has an id. -/
theorem isString_of_hasId {id : Node} {others : List Node}
    (h : (Shape.ofArguments (id :: others)).hasId = true) : isString id = true := by
  cases others with
  | nil => exact h
  | cons second others =>
    by_cases hid : isString id = true
    · exact hid
    · simp [Shape.ofArguments, hid] at h

section

variable (name : String) (place : Span) {arguments : List Node}

/-- An array that stands where it belongs is still the first one. -/
theorem dependencyIds_repaired_of_hasDependencies
    (h : (Shape.ofArguments arguments).hasDependencies = true) :
    dependencyIds (repaired name place arguments) = dependencyIds arguments := by
  unfold repaired repair?
  match hshape : Shape.ofArguments arguments with
  | ⟨true, true⟩ => rfl
  | ⟨false, true⟩ => exact dependencyIds_string name place arguments
  | ⟨true, false⟩ | ⟨false, false⟩ =>
    rw [hshape] at h
    cases h

/-- Where there is none, an empty array is put in front of all that could be one. -/
theorem dependencyIds_repaired_of_not_hasDependencies
    (h : (Shape.ofArguments arguments).hasDependencies = false) :
    dependencyIds (repaired name place arguments) = [] := by
  unfold repaired repair?
  match hshape : Shape.ofArguments arguments with
  | ⟨false, false⟩ =>
    exact (dependencyIds_string name place _).trans (dependencyIds_emptyArray place arguments)
  | ⟨true, false⟩ =>
    match arguments with
    | [] => rfl
    | id :: others =>
      -- the array goes behind the id, which is no array itself
      have hid : isString id = true := isString_of_hasId (by rw [hshape])
      exact (dependencyIds_cons_of_not_isArray (isArray_of_isString hid) _).trans
        (dependencyIds_emptyArray place others)
  | ⟨true, true⟩ | ⟨false, true⟩ =>
    rw [hshape] at h
    cases h

end

/-- **What a repair makes of the ids of a call.** They are the same when the array stands where the
repair looks for one, and none are left when it does not. So exactly the calls that name ids in an
array which stands elsewhere name others once they are repaired. -/
theorem dependencyIds_repaired (name : String) (place : Span) (arguments : List Node) :
    dependencyIds (repaired name place arguments)
        = (if (Shape.ofArguments arguments).hasDependencies then dependencyIds arguments else [])
      ∧ (dependencyIds (repaired name place arguments) = dependencyIds arguments ↔
        (Shape.ofArguments arguments).hasDependencies = true ∨ dependencyIds arguments = []) := by
  cases h : (Shape.ofArguments arguments).hasDependencies with
  | true =>
    have hkept := dependencyIds_repaired_of_hasDependencies name place h
    exact ⟨by simpa using hkept, by simp [hkept]⟩
  | false =>
    have hnone := dependencyIds_repaired_of_not_hasDependencies name place h
    refine ⟨by simpa using hnone, fun hsame => .inr (hsame.symm.trans hnone), fun hfew => ?_⟩
    rw [hnone, hfew.resolve_left (by simp)]

/-- The arguments of `define(f, ['a'])`. -/
def lateArray : List Node :=
  [.mk (.identifier "f") ⟨7, 8⟩ [], .mk .array ⟨10, 15⟩ [.mk (.string "a") ⟨11, 14⟩ []]]

/-- An array behind another argument is hidden by the repair, and by the text that results from it:
the call is read back with the empty array in front. -/
theorem dependencyIds_lateArray :
    dependencyIds lateArray = ["a"]
      ∧ dependencyIds (repaired "m" ⟨0, 0⟩ lateArray) = []
      ∧ ((Script.parse MediaType.javaScript.dialect "define(f, ['a']);".toList).map
          fun program => (definitions program.root).map (·.ids)) = some [["a"]]
      ∧ (Normalize.text Service.direct { } "m" "define(f, ['a']);".toList ()).value.toOption
        = some "define('m',[],f, ['a']);".toList
      ∧ ((Script.parse MediaType.javaScript.dialect "define('m',[],f, ['a']);".toList).map
          fun program => (definitions program.root).map (·.ids)) = some [[]] := by
  refine ⟨by decide, by decide, by decide +kernel, by decide +kernel, by decide +kernel⟩

end AmdModules.Loader
