import AmdModules.Proofs.Normalize.Differences
import AmdModules.Proofs.Script.Escape

/-!
# A repaired call lacks nothing

A call of `define` is complete when it starts with a string and an array (`isComplete_iff`). Each of
the four shapes of a call has its own repair, and each leads there: what was missing stands in
front of what was there (`repaired_eq`). So a repair is made once and for all, no argument is lost
on the way, and the id that is read from the text put in is the name of the module. In an accepted
ASCII text each call that lacks something gets its text put in, once (`repaired_completes`).
-/

set_option autoImplicit false

namespace AmdModules.Loader

open Script (Node Program)
open Normalize (callEdits dependenciesEdit idText)
open Text (byteLength)

/-! ## Shapes -/

theorem isComplete_iff {arguments : List Node} :
    (Shape.ofArguments arguments).isComplete = true ↔
      ∃ id array others, arguments = id :: array :: others ∧ isString id = true
        ∧ isArray array = true := by
  match arguments with
  | [] => simp [Shape.ofArguments, Shape.isComplete]
  | [only] =>
    -- a single argument would have to be a string and an array
    cases hid : isString only with
    | false => simp [Shape.ofArguments, Shape.isComplete, hid]
    | true => simp [Shape.ofArguments, Shape.isComplete, isArray_of_isString hid]
  | first :: second :: others =>
    cases hid : isString first with
    | false => simp [Shape.ofArguments, Shape.isComplete, hid]
    | true => simp [Shape.ofArguments, Shape.isComplete, hid]

/-- A call without an id that has an array starts with it. -/
theorem exists_array_of_shape {arguments : List Node}
    (h : Shape.ofArguments arguments = ⟨false, true⟩) :
    ∃ array others, arguments = array :: others ∧ isArray array = true := by
  match arguments with
  | [] => cases h
  | [only] => exact ⟨only, [], rfl, congrArg Shape.hasDependencies h⟩
  | first :: second :: others =>
    refine ⟨first, second :: others, rfl, ?_⟩
    simp only [Shape.ofArguments] at h
    split at h
    · cases h
    · exact congrArg Shape.hasDependencies h

theorem exists_id_of_shape {arguments : List Node}
    (h : (Shape.ofArguments arguments).hasId = true) :
    ∃ id others, arguments = id :: others ∧ isString id = true := by
  cases arguments with
  | nil => cases h
  | cons id others => exact ⟨id, others, rfl, isString_of_hasId h⟩

/-! ## Repaired calls -/

section

variable (name : String) (place : Span) (arguments : List Node)

/-- The id, if it is missing, and the array, if that is, stand in front of the other arguments. -/
theorem repaired_eq :
    repaired name place arguments
      = (if (Shape.ofArguments arguments).hasId then arguments.take 1
          else [.mk (.string name) place []])
        ++ (if (Shape.ofArguments arguments).hasDependencies then [] else [.mk .array place []])
        ++ (if (Shape.ofArguments arguments).hasId then arguments.drop 1 else arguments) := by
  unfold repaired repair?
  match hshape : Shape.ofArguments arguments with
  | ⟨true, true⟩ =>
    change arguments = arguments.take 1 ++ [] ++ arguments.drop 1
    rw [List.append_nil, List.take_append_drop]
  | ⟨false, true⟩ | ⟨false, false⟩ => rfl
  | ⟨true, false⟩ =>
    obtain ⟨id, others, rfl, -⟩ := exists_id_of_shape (by rw [hshape])
    rfl

theorem isComplete_repaired :
    (Shape.ofArguments (repaired name place arguments)).isComplete = true := by
  rw [isComplete_iff, repaired_eq]
  match hshape : Shape.ofArguments arguments with
  | ⟨true, true⟩ =>
    obtain ⟨id, array, others, rfl, hid, harray⟩ := isComplete_iff.mp (by rw [hshape]; rfl)
    exact ⟨id, array, others, rfl, hid, harray⟩
  | ⟨true, false⟩ =>
    obtain ⟨id, others, rfl, hid⟩ := exists_id_of_shape (by rw [hshape])
    exact ⟨id, _, others, rfl, hid, rfl⟩
  | ⟨false, true⟩ =>
    obtain ⟨array, others, rfl, harray⟩ := exists_array_of_shape hshape
    exact ⟨_, array, others, rfl, rfl, harray⟩
  | ⟨false, false⟩ => exact ⟨_, _, arguments, rfl, rfl, rfl⟩

theorem repair?_repaired : repair? (repaired name place arguments) = none := by
  simp [repair?, isComplete_repaired]

theorem sublist_repaired : arguments.Sublist (repaired name place arguments) := by
  rw [repaired_eq]
  match hshape : Shape.ofArguments arguments with
  | ⟨true, _⟩ =>
    conv_lhs => rw [← List.take_append_drop 1 arguments]
    exact (List.sublist_append_left _ _).append (.refl _)
  | ⟨false, _⟩ => exact List.sublist_append_right _ _

end

/-! ## The text of a repair -/

/-- What is put in front of all arguments is read as a string with the name of the module, a comma,
and an empty array and a comma if the call has none. -/
theorem readKind_idText (name : String) (hasDependencies : Bool) (rest : List Char) :
    Script.readKind (idText name (!hasDependencies) ++ rest)
      = (.string name, byteLength ('\x27' :: (Script.escape '\x27' name.toList ++ ['\x27'])),
        ',' :: ((if hasDependencies then [] else "[],".toList) ++ rest)) := by
  have hread := @Script.readKind_escape '\x27' (.inl rfl) name.toList
    (',' :: ((if hasDependencies then [] else "[],".toList) ++ rest))
  rw [String.ofList_toList] at hread
  cases hasDependencies <;> simpa [idText] using hread

/-- The text that is put into a call without an id. -/
theorem text_of_mem_callEdits {name : String} {text : List Char} {comments : List Span}
    {call : Call} {e : Edit} (he : e ∈ callEdits name text comments call)
    (hid : (Shape.ofArguments call.arguments).hasId = false) :
    e.text = idText name (!(Shape.ofArguments call.arguments).hasDependencies) := by
  have hrepair : repair? call.arguments
      = some (.id (!(Shape.ofArguments call.arguments).hasDependencies)) := by
    simp [repair?, Shape.isComplete, hid]
  simp only [callEdits, hrepair] at he
  split at he
  · cases he
  · rw [List.mem_singleton.mp he]
    rfl

/-- The text that is put behind an id: an empty array, and the commas it needs on its sides. -/
theorem text_of_mem_dependenciesEdit {text : List Char} {comments : List Span}
    {arguments : List Node} {e : Edit} (he : e ∈ dependenciesEdit text comments arguments) :
    e.text.filter (· ≠ ',') = "[]".toList := by
  unfold dependenciesEdit at he
  split at he
  · cases he
  · rw [List.mem_singleton.mp he]
    rfl
  · dsimp only at he
    split at he
    · rw [List.mem_singleton.mp he]
      rfl
    · rw [List.mem_singleton.mp he]
      rfl

theorem array_of_mem_callEdits {name : String} {text : List Char} {comments : List Span}
    {call : Call} {e : Edit} (he : e ∈ callEdits name text comments call)
    (hid : (Shape.ofArguments call.arguments).hasId = true) :
    (Shape.ofArguments call.arguments).hasDependencies = false
      ∧ e.text.filter (· ≠ ',') = "[]".toList := by
  cases hdependencies : (Shape.ofArguments call.arguments).hasDependencies with
  | true =>
    have hrepair : repair? call.arguments = none := by
      simp [repair?, Shape.isComplete, hid, hdependencies]
    simp only [callEdits, hrepair] at he
    cases he
  | false =>
    have hrepair : repair? call.arguments = some .dependencies := by
      simp [repair?, Shape.isComplete, hid, hdependencies]
    simp only [callEdits, hrepair] at he
    split at he
    · cases he
    · exact ⟨rfl, text_of_mem_dependenciesEdit he⟩

/-- An accepted ASCII text asks for one edit for each call that lacks something. -/
theorem length_callEdits {text : List Char} {program : Program} (hascii : Text.IsAscii text)
    (hparse : Script.parse MediaType.javaScript.dialect text = some program) {call : Call}
    (hcall : call ∈ definitions program.root) (name : String) :
    (callEdits name text (program.comments.map (·.throughPosition text)) call).length
      = if (Shape.ofArguments call.arguments).isComplete then 0 else 1 := by
  rw [Normalize.callEdits_of_parse hascii hparse hcall]
  have hsome := Normalize.isSome_completion? name text call
  cases hedit : Normalize.completion? name text call <;> simp_all

/-- **A repair completes a call.** What is missing is put in, the id first and the array right
behind the id, and then nothing is missing: the call is complete and asks for no more edits. All
arguments are still there in their order. Where the id was missing, the first argument is now a
string that stands for the name of the module, and so is the token that the text put in starts
with. Where only the array was, the text put in is an empty array with commas on its sides. In an
accepted ASCII text such a text is put into each call that lacks something, exactly once. -/
theorem repaired_completes (name : String) (place : Span) (arguments : List Node) :
    repaired name place arguments
        = (if (Shape.ofArguments arguments).hasId then arguments.take 1
            else [.mk (.string name) place []])
          ++ (if (Shape.ofArguments arguments).hasDependencies then [] else [.mk .array place []])
          ++ (if (Shape.ofArguments arguments).hasId then arguments.drop 1 else arguments)
      ∧ (Shape.ofArguments (repaired name place arguments)).isComplete = true
      ∧ (∀ (name' : String) (place' : Span),
        repaired name' place' (repaired name place arguments) = repaired name place arguments)
      ∧ (∀ (name' : String) (text : List Char) (comments : List Span) (call : Call),
        call.arguments = repaired name place arguments → callEdits name' text comments call = [])
      ∧ arguments.Sublist (repaired name place arguments)
      ∧ ((Shape.ofArguments arguments).hasId = false →
        (repaired name place arguments).head?.bind stringValue? = some name
          ∧ ∀ (text : List Char) (comments : List Span) (call : Call), call.arguments = arguments →
            ∀ e ∈ callEdits name text comments call, ∀ rest,
              (Script.readKind (e.text ++ rest)).1 = .string name
                ∧ (Script.readKind (e.text ++ rest)).2.2
                  = ',' :: ((if (Shape.ofArguments arguments).hasDependencies then []
                    else "[],".toList) ++ rest))
      ∧ ((Shape.ofArguments arguments).hasId = true →
        ∀ (text : List Char) (comments : List Span) (call : Call), call.arguments = arguments →
          ∀ e ∈ callEdits name text comments call,
            (Shape.ofArguments arguments).hasDependencies = false
              ∧ e.text.filter (· ≠ ',') = "[]".toList)
      ∧ ∀ (text : List Char) (program : Program), Text.IsAscii text →
        Script.parse MediaType.javaScript.dialect text = some program →
        ∀ call ∈ definitions program.root, call.arguments = arguments →
          (callEdits name text (program.comments.map (·.throughPosition text)) call).length
            = if (Shape.ofArguments arguments).isComplete then 0 else 1 := by
  refine ⟨repaired_eq name place arguments, isComplete_repaired name place arguments, ?_, ?_,
    sublist_repaired name place arguments, fun hid => ⟨?_, ?_⟩, ?_, ?_⟩
  · intro name' place'
    rw [repaired, repair?_repaired]
  · intro name' text comments call harguments
    rw [callEdits, harguments, repair?_repaired]
  · simp [repaired_eq, hid, stringValue?, Node.kind]
  · intro text comments call harguments e he rest
    subst harguments
    rw [text_of_mem_callEdits he hid, readKind_idText]
    exact ⟨rfl, rfl⟩
  · intro hid text comments call harguments e he
    subst harguments
    exact array_of_mem_callEdits he hid
  · intro text program hascii hparse call hcall harguments
    subst harguments
    exact length_callEdits hascii hparse hcall name

/-- The arguments of `define(...rest, ['a'])`. -/
def spreadFirst : List Node :=
  [.mk .spread ⟨7, 14⟩ [.mk (.identifier "rest") ⟨10, 14⟩ []],
    .mk .array ⟨16, 21⟩ [.mk (.string "a") ⟨17, 20⟩ []]]

/-- Its text. -/
def spreadFirstText : List Char :=
  "define(...rest, ['a'])".toList

theorem spreadFirstText_shapes :
    ((Script.parse MediaType.javaScript.dialect spreadFirstText).map
        fun program => (definitions program.root).map (Shape.ofArguments ·.arguments))
      = some [⟨false, false⟩] := by
  decide +kernel

/-- A call that starts with a spread gets both its id and its array, with one edit. -/
theorem repaired_spreadFirst :
    (Shape.ofArguments spreadFirst).hasId = false
      ∧ spreadFirst.Sublist (repaired "it's" ⟨0, 0⟩ spreadFirst)
      ∧ (repaired "it's" ⟨0, 0⟩ spreadFirst).head?.bind stringValue? = some "it's"
      ∧ ∃ program call, Script.parse MediaType.javaScript.dialect spreadFirstText = some program
        ∧ call ∈ definitions program.root
        ∧ (callEdits "it's" spreadFirstText
          (program.comments.map (·.throughPosition spreadFirstText)) call).length = 1 := by
  have hid : (Shape.ofArguments spreadFirst).hasId = false := by decide
  obtain ⟨-, -, -, -, hkept, hnamed, -⟩ := repaired_completes "it's" ⟨0, 0⟩ spreadFirst
  obtain ⟨program, hparse, hshapes⟩ := Option.map_eq_some_iff.mp spreadFirstText_shapes
  obtain ⟨call, rest, hcalls, hshape, -⟩ := List.map_eq_cons_iff.mp hshapes
  have hmem : call ∈ definitions program.root := hcalls ▸ List.mem_cons_self
  obtain ⟨-, -, -, -, -, -, -, honce⟩ := repaired_completes "it's" ⟨0, 0⟩ call.arguments
  have hlength := honce _ program (by decide +kernel) hparse call hmem rfl
  rw [hshape] at hlength
  exact ⟨hid, hkept, (hnamed hid).1, program, call, hparse, hmem, hlength⟩

end AmdModules.Loader
