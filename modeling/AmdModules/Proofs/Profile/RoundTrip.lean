import AmdModules.Proofs.Json.Ensures
import AmdModules.Proofs.Json.RoundTrip
import AmdModules.Profile.Load
import Mathlib.Data.List.Nodup

/-!
# Saving and loading profiles

A profile that was loaded is saved and loaded again without a change. What makes this true is what
loading guarantees (`Loaded`): the shims of a profile have different names and fit together, so that
setting them one by one gives the same list again and none is refused (`parse_loaded`). Strings come
back by `Json.Reader.text_takes`, whatever they hold. The text of a base comes back as the base if
the URL parser undoes its own rendering, which is asked of the base at hand.
-/

set_option autoImplicit false

namespace AmdModules

open Json (Reader)
open Json.Reader (Takes Fills)

/-! ## Shims -/

namespace Shim

/-- Its parts fit together. -/
def Fits (shim : Shim) : Prop :=
  ofParts shim.deps shim.exports shim.init = .ok shim

theorem fits_of_ofParts {deps : List String} {exports init : Option String} {shim : Shim}
    (h : ofParts deps exports init = .ok shim) : shim.Fits := by
  unfold ofParts at h
  split at h
  · cases h
  · split at h
    · obtain rfl := Except.ok.inj h
      simp_all [Fits, ofParts]
    · cases h
  · obtain rfl := Except.ok.inj h
    rfl

theorem value_text {depth : Nat} (text : String) (rest : List Char) :
    Takes (Reader.value (depth + 1)) (Json.writeText text ++ rest) rest (.string text) :=
  .located (.bind (Json.Reader.peekValue_takes (by decide) _)
    (.bind (Json.Reader.text_takes text rest) (.pure _ _)))

theorem value_texts {depth : Nat} (texts : List String) (rest : List Char) :
    Takes (Reader.value (depth + 2)) (Json.writeTexts texts ++ rest) rest
      (.list (texts.map Json.string)) := by
  refine .located (.bind (Json.Reader.peekValue_takes (by decide) _) (.bind ?_ (.pure _ _)))
  refine Json.Reader.listOf_takes (by omega) (fun text rest => value_text text rest) ?_ texts rest
  exact fun text => ⟨_, _, rfl, by decide, by decide⟩

/-- The members of a shim as JSON. -/
def members (shim : Shim) : List (String × Json) :=
  ("deps", .list (shim.deps.map Json.string))
    :: (shim.exports.map fun text => ("exports", Json.string text)).toList
    ++ (shim.init.map fun text => ("init", Json.string text)).toList

theorem strings?_map (texts : List String) :
    strings? (.list (texts.map Json.string)) = some texts := by
  induction texts with
  | nil => rfl
  | cons text texts ih => simp_all [strings?, string?]

/-- The parts of a shim are found among its members again. -/
theorem parts?_members (shim : Shim) :
    parts? (.object shim.members) = some (shim.deps, shim.exports, shim.init) := by
  have hdeps := strings?_map shim.deps
  obtain ⟨deps, exports, init⟩ := shim
  cases exports <;> cases init <;> simp_all [parts?, members, member?, nullable?]

theorem value_render {depth : Nat} (shim : Shim) (rest : List Char) :
    Takes (Reader.value (depth + 3)) (shim.render ++ rest) rest (.object shim.members) := by
  have hstring : ∀ (key text : String) (found : List (String × Json)) (rest : List Char),
      Takes (do Reader.colon; return (key, ← Reader.value (depth + 2)) :: found)
        (':' :: Json.writeText text ++ rest) rest ((key, .string text) :: found) :=
    fun key text found rest =>
      .bind (Json.Reader.colon_takes _) (.bind (value_text text rest) (.pure _ _))
  have hfills : Fills (fun found key => do
        Reader.colon; return (key, ← Reader.value (depth + 2)) :: found) []
      [("deps", some (Json.writeTexts shim.deps)),
        ("exports", shim.exports.map Json.writeText), ("init", shim.init.map Json.writeText)]
      shim.members.reverse := by
    refine .written (fun rest => .bind (Json.Reader.colon_takes _)
      (.bind (value_texts shim.deps rest) (.pure _ _))) ?_
    obtain ⟨deps, exports, init⟩ := shim
    cases exports with
    | none =>
      cases init with
      | none => exact .left_out (.left_out (.nil _))
      | some init => exact .left_out (.written (hstring "init" init _) (.nil _))
    | some exports =>
      refine .written (hstring "exports" exports _) ?_
      cases init with
      | none => exact .left_out (.nil _)
      | some init => exact .written (hstring "init" init _) (.nil _)
  have hvalue := Json.Reader.objectOf_takes (show 1 < depth + 3 by omega) hfills rest
  refine .located (.bind (Json.Reader.peekValue_takes (by decide) _) (.bind hvalue ?_))
  rw [List.reverse_reverse]
  exact .pure _ _

/-- **A shim that fits is read back.** -/
theorem read_render {depth : Nat} {shim : Shim} (h : shim.Fits) (rest : List Char) :
    Takes (read (depth + 3)) (shim.render ++ rest) rest shim := by
  refine .bind (value_render shim rest) ?_
  rw [parts?_members]
  rw [Fits] at h
  simp only [h]
  exact .pure _ _

end Shim

/-! ## Shims by name -/

namespace Shims

theorem insert_of_not_mem {shims : Shims} {name : String} (h : name ∉ shims.map Prod.fst)
    (shim : Shim) : shims.insert name shim = shims ++ [(name, shim)] := by
  induction shims with
  | nil => rfl
  | cons entry entries ih =>
    simp only [List.map_cons, List.mem_cons, not_or] at h
    rw [insert, if_neg (Ne.symm h.1), ih h.2, List.cons_append]

theorem map_fst_insert (shims : Shims) (name : String) (shim : Shim) :
    (shims.insert name shim).map Prod.fst
      = if name ∈ shims.map Prod.fst then shims.map Prod.fst
        else shims.map Prod.fst ++ [name] := by
  induction shims with
  | nil => rfl
  | cons entry entries ih =>
    by_cases hname : entry.1 = name
    · simp [insert, hname]
    · have hother : ¬ name = entry.1 := fun h => hname h.symm
      by_cases hmem : name ∈ entries.map Prod.fst <;> simp_all [insert]

theorem mem_insert {shims : Shims} {name : String} {shim : Shim} {entry : String × Shim}
    (h : entry ∈ shims.insert name shim) : entry = (name, shim) ∨ entry ∈ shims := by
  induction shims with
  | nil => exact .inl (List.mem_singleton.mp h)
  | cons first entries ih =>
    rw [insert] at h
    split at h
    · rcases List.mem_cons.mp h with rfl | h
      · exact .inl rfl
      · exact .inr (List.mem_cons_of_mem _ h)
    · rcases List.mem_cons.mp h with rfl | h
      · exact .inr List.mem_cons_self
      · exact (ih h).imp_right (List.mem_cons_of_mem _)

/-- Names that are all different, and shims that fit. -/
structure Sound (shims : Shims) : Prop where
  names : (shims.map Prod.fst).Nodup
  fits : ∀ entry ∈ shims, entry.2.Fits

theorem Sound.nil : Sound [] :=
  ⟨List.nodup_nil, by simp⟩

theorem Sound.insert {shims : Shims} (h : shims.Sound) (name : String) {shim : Shim}
    (hshim : shim.Fits) : (shims.insert name shim).Sound := by
  refine ⟨?_, fun entry hentry => ?_⟩
  · rw [map_fst_insert]
    split
    · exact h.names
    · rename_i hnew
      exact List.nodup_append.mpr ⟨h.names, by simp, by grind⟩
  · rcases mem_insert hentry with rfl | hentry
    · exact hshim
    · exact h.fits entry hentry

/-- Shims that are set in order, behind those that are there. -/
theorem fills_sound {depth : Nat} (before : Shims) {shims : Shims} (h : (before ++ shims).Sound) :
    Fills (fun (found : Shims) name => do
        Reader.colon
        let shim ← Shim.read (depth + 3)
        return found.insert name shim)
      before (shims.map fun (name, shim) => (name, some shim.render)) (before ++ shims) := by
  induction shims generalizing before with
  | nil =>
    rw [List.append_nil]
    exact .nil _
  | cons entry shims ih =>
    obtain ⟨name, shim⟩ := entry
    have hfits : shim.Fits := h.fits (name, shim) (by simp)
    have hnew : name ∉ before.map Prod.fst := by
      have hnames := h.names
      rw [List.map_append, List.nodup_append] at hnames
      intro hmem
      exact hnames.2.2 name hmem name (by simp) rfl
    have hset : before ++ (name, shim) :: shims = before.insert name shim ++ shims := by
      rw [insert_of_not_mem hnew, List.append_assoc, List.singleton_append]
    refine .written (fun rest => .bind (Json.Reader.colon_takes _)
      (.bind (Shim.read_render hfits rest) (.pure rest (before.insert name shim)))) ?_
    rw [hset] at h ⊢
    exact ih _ h

end Shims

/-! ## Profiles -/

namespace Profile

theorem readShims_render {depth : Nat} {shims : Shims} (h : shims.Sound) (rest : List Char) :
    Takes (readShims (depth + 4)) (renderShims shims ++ rest) rest shims :=
  .located (.bind (Json.Reader.peekValue_takes (by decide) _)
    (Json.Reader.objectOf_takes (by omega) (Shims.fills_sound [] h) rest))

theorem bool_write (b : Bool) (rest : List Char) :
    Takes Reader.bool (Json.writeBool b ++ rest) rest b := by
  cases b with
  | true =>
    exact .located (.bind (Json.Reader.peekValue_takes (by decide) _)
      (.bind (Json.Reader.letters_takes "true".toList rest) (.pure _ _)))
  | false =>
    exact .located (.bind (Json.Reader.peekValue_takes (by decide) _)
      (.bind (Json.Reader.letters_takes "false".toList rest) (.pure _ _)))

theorem readUrl_write {url : Url} (h : Url.parse url.render = .ok url) (rest : List Char) :
    Takes (Reader.optional readUrl) (Json.writeText (toString url) ++ rest) rest (some url) := by
  have hparse : Url.parse (toString url).toList = .ok url := by
    rwa [show (toString url).toList = url.render from String.toList_ofList]
  have hread : Takes readUrl (Json.writeText (toString url) ++ rest) rest url := by
    refine .located (.bind (Json.Reader.peekValue_takes (by decide) _)
      (.bind (Json.Reader.text_takes (toString url) rest) ?_))
    simp only [hparse]
    exact .pure _ _
  exact .bind (Json.Reader.peekToken_takes (by decide) _) (.bind hread (.pure _ _))

theorem once_takes {α : Type} {key : String} {reader : Reader α} {value rest : List Char} {a : α}
    (h : Takes reader (value ++ rest) rest a) :
    Takes (once key none reader) (':' :: value ++ rest) rest (some a) :=
  .bind (Json.Reader.colon_takes _) (.bind h (.pure _ _))

/-- A profile whose shims are sound, and whose base is what its own text stands for. -/
structure Stable (p : Profile) : Prop where
  shims : p.shims.Sound
  base : ∀ url, p.baseUrl = some url → Url.parse url.render = .ok url

/-- **A stable profile is read back.** -/
theorem read_render {depth : Nat} {p : Profile} (h : p.Stable) (rest : List Char) :
    Takes (read (depth + 5)) (p.render ++ rest) rest p := by
  obtain ⟨baseUrl, useStrict, nested, shims⟩ := p
  have hflags : ∀ base, Fills (readMember (depth + 4)) { baseUrl := base }
      [("useStrict", some (Json.writeBool useStrict)),
        ("findNestedDependencies", some (Json.writeBool nested)),
        ("shim", if shims.isEmpty then none else some (renderShims shims))]
      { baseUrl := base, useStrict := some useStrict, findNestedDependencies := some nested,
        shims := if shims.isEmpty then none else some shims } := by
    intro base
    refine .written (fun rest => .bind (once_takes (bool_write useStrict rest)) (.pure _ _)) ?_
    refine .written (fun rest => .bind (once_takes (bool_write nested rest)) (.pure _ _)) ?_
    cases shims with
    | nil => exact .left_out (.nil _)
    | cons entry entries =>
      exact .written (fun rest =>
        .bind (once_takes (readShims_render h.shims rest)) (.pure _ _)) (.nil _)
  have hfills : ∃ found : Partial, found.complete = ⟨baseUrl, useStrict, nested, shims⟩
      ∧ Fills (readMember (depth + 4)) { }
        [("baseUrl", baseUrl.map fun url => Json.writeText (toString url)),
          ("useStrict", some (Json.writeBool useStrict)),
          ("findNestedDependencies", some (Json.writeBool nested)),
          ("shim", if shims.isEmpty then none else some (renderShims shims))] found := by
    cases baseUrl with
    | none =>
      refine ⟨_, ?_, .left_out (hflags none)⟩
      cases shims <;> rfl
    | some url =>
      refine ⟨_, ?_, .written (fun rest => .bind (once_takes (readUrl_write (h.base url rfl) rest))
        (.pure _ _)) (hflags (some (some url)))⟩
      cases shims <;> rfl
  obtain ⟨found, hcomplete, hfills⟩ := hfills
  have hobject := Json.Reader.objectOf_takes (show 1 < depth + 5 by omega) hfills rest
  refine .located (.bind (Json.Reader.peekValue_takes (by decide) _) (.bind hobject ?_))
  rw [← hcomplete]
  exact .pure _ _

end Profile

/-! ## What loading guarantees -/

open Json.Reader (Ensures)

theorem Shim.read_ensures (depth : Nat) : Ensures (Shim.read depth) Shim.Fits := by
  refine .bind (.any _) fun json _ => ?_
  split
  · exact .unwanted _ _
  · rename_i deps exports init _
    cases hparts : Shim.ofParts deps exports init with
    | ok shim => exact .pure (fits_of_ofParts hparts)
    | error e => exact .unwanted _ _

namespace Profile

theorem readShims_ensures (depth : Nat) : Ensures (readShims depth) Shims.Sound := by
  refine .located (.bind (.any _) fun c _ => ?_)
  split
  · refine .objectOf .nil fun shims name hshims => .bind (.any _) fun _ _ => ?_
    exact .bind (Shim.read_ensures _) fun shim hshim => .pure (hshims.insert name hshim)
  · exact .mismatch _ _

/-- The shims that have been read so far are sound. -/
def Partial.Sound (p : Partial) : Prop :=
  ∀ shims, p.shims = some shims → shims.Sound

theorem once_ensures {α : Type} {key : String} {seen : Option α} {reader : Reader α}
    {P : α → Prop} (h : Ensures reader P) :
    Ensures (once key seen reader) fun found => ∀ a, found = some a → P a := by
  unfold once
  split
  · exact .unwanted _ _
  · refine .bind (.any _) fun _ _ => .bind h fun a ha => .pure ?_
    rintro b ⟨⟩
    exact ha

theorem readMember_ensures (depth : Nat) {p : Partial} (key : String) (h : p.Sound) :
    Ensures (readMember depth p key) Partial.Sound := by
  unfold readMember
  split
  · exact .bind (.any _) fun _ _ => .pure h
  · exact .bind (.any _) fun _ _ => .pure h
  · exact .bind (.any _) fun _ _ => .pure h
  · exact .bind (once_ensures (readShims_ensures depth)) fun found hfound => .pure hfound
  · exact .bind (.any _) fun _ _ => .bind (.any _) fun _ _ => .bind (.any _) fun _ _ => .pure h

theorem readItem_ensures {α : Type} {first : Bool} {reader : Reader α} {P : α → Prop}
    (h : Ensures reader P) :
    Ensures (readItem first reader) fun found => ∀ a, found = some a → P a := by
  refine .bind (.items h 1 first) fun as has => ?_
  split
  · refine .pure ?_
    rintro b ⟨⟩
    exact has _ (by simp)
  · refine .pure ?_
    rintro b ⟨⟩

theorem readItems_ensures (depth : Nat) : Ensures (readItems depth) Partial.Sound :=
  .bind (.any _) fun _ _ => .bind (.any _) fun _ _ => .bind (.any _) fun _ _ =>
    .bind (readItem_ensures (readShims_ensures depth)) fun _ hfound => .pure hfound

/-- **The shims of a profile that was read are sound.** -/
theorem read_ensures (depth : Nat) : Ensures (read depth) fun p => p.shims.Sound := by
  have hcomplete : ∀ found : Partial, found.Sound → found.complete.shims.Sound := by
    intro found hfound
    unfold Partial.complete
    cases hshims : found.shims with
    | none => exact .nil
    | some shims => exact hfound shims hshims
  refine .located (.bind (.any _) fun c _ => ?_)
  split
  · exact .bind (.listOf fun _ => readItems_ensures _) fun found hfound =>
      .pure (hcomplete found hfound)
  · refine .bind (.objectOf ?_ fun p key hp => readMember_ensures _ key hp) fun found hfound =>
      .pure (hcomplete found hfound)
    rintro shims ⟨⟩
  · exact .bind (.mismatch (fun _ => False) _) fun _ h => h.elim

theorem sound_of_parse {text : List Char} {p : Profile} (h : parse text = .ok p) :
    p.shims.Sound := by
  unfold parse at h
  cases hrun : (read Reader.depthLimit).run text with
  | error e =>
    rw [hrun] at h
    cases h
  | ok q =>
    rw [hrun] at h
    have hshims : q.shims.Sound := (read_ensures _).run hrun
    obtain rfl := Except.ok.inj h
    exact hshims

/-- **A profile that was loaded survives being saved.** Its text loads as the same profile, so that
saving it once more gives the same text. Of the base, if there is one, it is asked that its path
ends in a slash and that its own text stands for it. -/
theorem parse_render_of_parse {text : List Char} {p : Profile} (h : parse text = .ok p)
    (hslash : ∀ url, p.baseUrl = some url → Url.endsWithSlash url.path = true)
    (hurl : ∀ url, p.baseUrl = some url → Url.parse url.render = .ok url) :
    parse p.render = .ok p ∧ (parse p.render).map render = .ok p.render := by
  have hread : (read Reader.depthLimit).run p.render = .ok p := by
    have htakes : Takes (read (123 + 5)) (p.render ++ []) [] p :=
      read_render ⟨sound_of_parse h, hurl⟩ []
    rw [List.append_nil] at htakes
    exact htakes.run_eq
  have hbase : p.baseUrl.map Url.withTrailingSlash = p.baseUrl := by
    cases hp : p.baseUrl with
    | none => rfl
    | some url => simp [Url.withTrailingSlash, hslash url hp]
  have hparse : parse p.render = .ok p := by
    rw [parse, hread]
    simp [Except.map, hbase]
  exact ⟨hparse, by simp [hparse, Except.map]⟩

/-- Shims in both forms, a name that is set twice, an unknown key and characters that need an
escape. -/
def writtenProfile : List Char :=
  ("\x7b \"useStrict\": true, \"other\": [], \"baseUrl\": \"file:///app\",\n"
    ++ "\"shim\": \x7b \"a\": [\"e\"], "
    ++ "\"b\": \x7b \"exports\": \"B.c\", \"init\": \"\\\\\\u0007\" \x7d, "
    ++ "\"a\": \x7b \"deps\": [\"d\"], \"exports\": null \x7d \x7d \x7d").toList

def readProfile : Profile where
  baseUrl := some (Url.localFile "/app/".toList)
  useStrict := true
  shims :=
    [("a", { deps := ["d"] }), ("b", { deps := [], exports := some "B.c", init := some "\\\x07" })]

theorem parse_writtenProfile : parse writtenProfile = .ok readProfile := by
  decide +kernel

theorem parse_render_readProfile :
    parse writtenProfile = .ok readProfile
      ∧ Url.parse (Url.localFile "/app/".toList).render = .ok (Url.localFile "/app/".toList)
      ∧ parse readProfile.render = .ok readProfile
      ∧ (parse readProfile.render).map render = .ok readProfile.render := by
  have hurl : Url.parse (Url.localFile "/app/".toList).render
      = .ok (Url.localFile "/app/".toList) := by
    decide +kernel
  refine ⟨parse_writtenProfile, hurl, parse_render_of_parse parse_writtenProfile ?_ ?_⟩
  · rintro url ⟨⟩
    decide
  · rintro url ⟨⟩
    exact hurl

end Profile

end AmdModules
