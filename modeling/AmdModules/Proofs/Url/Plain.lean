import AmdModules.Proofs.Text.Split
import AmdModules.Proofs.Url.Settled
import Mathlib.Data.List.TakeDrop
import Mathlib.Data.List.TakeWhile

/-!
# Plain paths

A plain path is made of segments of letters, digits, `_`, `-` and dots, none of them empty, one dot
or two dots. Nothing in it means anything to a reader of URLs: it is no scheme, names no drive, is
not encoded, and no segment is left out. So relative to a URL of a special scheme whose path ends
with a slash it is the path of that URL with the plain path behind it (`join_plain`).
-/

set_option autoImplicit false

namespace AmdModules

namespace Url

/-! ## Plain characters and segments -/

/-- ASCII letters, digits, `_`, `-` and `.`. -/
def isPlainChar (c : Char) : Bool :=
  c.isAlphanum || c == '_' || c == '-' || c == '.'

/-- A segment that says where to go down, and nothing else. -/
structure IsPlainSegment (segment : List Char) : Prop where
  ne_nil : segment ≠ []
  ne_dot : segment ≠ ['.']
  ne_dots : segment ≠ ['.', '.']
  plain : ∀ c ∈ segment, isPlainChar c = true

/-- One or more plain segments with slashes between them. -/
def IsPlainPath (path : List Char) : Prop :=
  ∃ segments, segments ≠ [] ∧ path = Text.joinWith ['/'] segments
    ∧ ∀ segment ∈ segments, IsPlainSegment segment

theorem isPlainSegment_iff {segment : List Char} :
    IsPlainSegment segment ↔ segment ≠ [] ∧ segment ≠ ['.'] ∧ segment ≠ ['.', '.']
      ∧ segment.all isPlainChar = true := by
  rw [List.all_eq_true]
  exact ⟨fun h => ⟨h.ne_nil, h.ne_dot, h.ne_dots, h.plain⟩, fun ⟨hnil, hdot, hdots, hplain⟩ =>
    ⟨hnil, hdot, hdots, hplain⟩⟩

instance {segment : List Char} : Decidable (IsPlainSegment segment) :=
  decidable_of_iff _ isPlainSegment_iff.symm

/-- Where the plain characters stand. -/
theorem toNat_of_isPlainChar {c : Char} (h : isPlainChar c = true) :
    (48 ≤ c.toNat ∧ c.toNat ≤ 57) ∨ (65 ≤ c.toNat ∧ c.toNat ≤ 90)
      ∨ (97 ≤ c.toNat ∧ c.toNat ≤ 122) ∨ c.toNat = 95 ∨ c.toNat = 45 ∨ c.toNat = 46 := by
  simp only [isPlainChar, Bool.or_eq_true, Text.isAlphanum_iff, beq_iff_eq] at h
  rcases h with ((((hupper | hlower) | hdigit) | rfl) | rfl) | rfl
  · exact .inr (.inl hupper)
  · exact .inr (.inr (.inl hlower))
  · exact .inl hdigit
  · decide
  · decide
  · decide

/-- A character that means something in a URL is not plain. -/
theorem ne_of_isPlainChar {c d : Char} (h : isPlainChar c = true)
    (hd : isPlainChar d = false) : c ≠ d := by
  rintro rfl
  rw [h] at hd
  cases hd

theorem not_contains_of_isPlainChar {c : Char} (h : isPlainChar c = true) {ds : List Char}
    (hds : ds.any isPlainChar = false) : ds.contains c = false := by
  rw [← Bool.not_eq_true, List.contains_iff_mem]
  exact fun hmem => List.any_eq_false.mp hds c hmem h

/-- Plain characters are written as they are. -/
theorem inPathSet_of_isPlainChar {c : Char} (h : isPlainChar c = true) : inPathSet c = false := by
  have hplace := toNat_of_isPlainChar h
  have hunsafe : isUnsafe c = false := by
    rw [← Bool.not_eq_true]
    simp only [isUnsafe, Bool.or_eq_true, decide_eq_true_eq]
    omega
  rw [inPathSet, inFragmentSet, hunsafe, not_contains_of_isPlainChar h (by decide),
    not_contains_of_isPlainChar h (by decide)]
  rfl

theorem encode_plain {segment : List Char} (h : ∀ c ∈ segment, isPlainChar c = true) :
    encode inPathSet segment = segment := by
  induction segment with
  | nil => rfl
  | cons c segment ih =>
    obtain ⟨hc, hsegment⟩ := List.forall_mem_cons.mp h
    rw [encode, inPathSet_of_isPlainChar hc, ih hsegment]
    rfl

/-- The small form of a plain segment has no percent sign in it. -/
theorem lower_ne_of_percent {segment marks : List Char}
    (h : ∀ c ∈ segment, isPlainChar c = true) (hmarks : '%' ∈ marks) :
    Text.lower segment ≠ marks := by
  rintro rfl
  obtain ⟨c, hc, hpercent⟩ := List.mem_map.mp hmarks
  have hplain := h c hc
  rw [Text.eq_of_toLower_eq hpercent (by decide)] at hplain
  exact absurd hplain (by decide)

theorem not_contains_ofList {cs : List Char} {marks : List String}
    (h : ∀ mark ∈ marks, cs ≠ mark.toList) : marks.contains (String.ofList cs) = false := by
  rw [← Bool.not_eq_true, List.contains_iff_mem]
  exact fun hmem => h _ hmem String.toList_ofList.symm

/-- The second character decides that there is no drive. -/
theorem isDrive_eq_false {letter mark : Char} (hcolon : mark ≠ ':') (hbar : mark ≠ '|') :
    isDrive [letter, mark] = false := by
  rw [isDrive, beq_eq_false_iff_ne.mpr hcolon, beq_eq_false_iff_ne.mpr hbar, Bool.or_self,
    Bool.and_false]

namespace IsPlainSegment

variable {segment : List Char}

theorem not_isDoubleDot (h : IsPlainSegment segment) : isDoubleDot segment = false := by
  have hdots : Text.lower segment ≠ "..".toList :=
    fun heq => h.ne_dots (Text.eq_of_lower_eq heq (by decide))
  refine not_contains_ofList ?_
  simp only [List.forall_mem_cons]
  exact ⟨hdots, lower_ne_of_percent h.plain (by decide), lower_ne_of_percent h.plain (by decide),
    lower_ne_of_percent h.plain (by decide), List.forall_mem_nil _⟩

theorem not_isSingleDot (h : IsPlainSegment segment) : isSingleDot segment = false := by
  have hdot : Text.lower segment ≠ ".".toList :=
    fun heq => h.ne_dot (Text.eq_of_lower_eq heq (by decide))
  refine not_contains_ofList ?_
  simp only [List.forall_mem_cons]
  exact ⟨hdot, lower_ne_of_percent h.plain (by decide), List.forall_mem_nil _⟩

/-- A plain segment names no drive. -/
theorem not_isDrive (h : IsPlainSegment segment) : isDrive segment = false := by
  unfold isDrive
  split
  · rename_i letter mark
    have hmark : isPlainChar mark = true := h.plain mark (by simp)
    exact isDrive_eq_false (ne_of_isPlainChar hmark (by decide))
      (ne_of_isPlainChar hmark (by decide))
  · rfl

theorem append (h : IsPlainSegment segment) {behind : List Char}
    (hplain : behind.all isPlainChar = true) (hletter : behind.any (· != '.') = true) :
    IsPlainSegment (segment ++ behind) := by
  obtain ⟨c, hc, hletter⟩ := List.any_eq_true.mp hletter
  have hne : c ≠ '.' := bne_iff_ne.mp hletter
  have hmem : c ∈ segment ++ behind := List.mem_append_right _ hc
  refine ⟨List.append_ne_nil_of_left_ne_nil h.ne_nil _, fun heq => ?_, fun heq => ?_,
    List.forall_mem_append.mpr ⟨h.plain, List.all_eq_true.mp hplain⟩⟩
  · exact hne (by simpa [heq] using hmem)
  · exact hne (by simpa [heq] using hmem)

end IsPlainSegment

/-- A path is plain when its pieces between slashes are. -/
theorem isPlainPath_iff {path : List Char} :
    IsPlainPath path ↔ ∀ segment ∈ Text.splitOn '/' path, IsPlainSegment segment := by
  rw [Text.splitOn_eq]
  constructor
  · rintro ⟨segments, hne, rfl, hsegments⟩
    have hslash : ∀ segment ∈ segments, '/' ∉ segment := fun segment hsegment hmem =>
      absurd ((hsegments segment hsegment).plain '/' hmem) (by decide)
    rw [Text.joinWith_eq, List.splitOn_intercalate _ hslash hne]
    exact hsegments
  · intro h
    refine ⟨path.splitOn '/', List.splitOn_ne_nil _ _, ?_, h⟩
    rw [Text.joinWith_eq, List.intercalate_splitOn]

instance {path : List Char} : Decidable (IsPlainPath path) :=
  decidable_of_iff ((Text.splitOn '/' path).all fun segment => decide (IsPlainSegment segment))
    (by simp only [List.all_eq_true, decide_eq_true_eq, isPlainPath_iff])

/-- A plain path may go on, if not with dots only. -/
theorem IsPlainPath.append {path behind : List Char} (h : IsPlainPath path)
    (hplain : behind.all isPlainChar = true) (hletter : behind.any (· != '.') = true) :
    IsPlainPath (path ++ behind) := by
  obtain ⟨segments, hne, rfl, hsegments⟩ := h
  rcases segments.eq_nil_or_concat with rfl | ⟨front, last, rfl⟩
  · exact absurd rfl hne
  · rw [List.concat_eq_append] at hsegments ⊢
    rw [List.forall_mem_append, List.forall_mem_singleton] at hsegments
    refine ⟨front ++ [last ++ behind], by simp, Text.joinWith_concat_append .., ?_⟩
    rw [List.forall_mem_append, List.forall_mem_singleton]
    exact ⟨hsegments.1, hsegments.2.append hplain hletter⟩

/-! ## Reading a plain path -/

theorem takeSegments_append {segment : List Char} (h : ∀ c ∈ segment, isPlainChar c = true)
    (special : Bool) {cs rest first : List Char} {segments : List (List Char)}
    (hcs : takeSegments special cs = (first :: segments, rest)) :
    takeSegments special (segment ++ cs) = ((segment ++ first) :: segments, rest) := by
  induction segment with
  | nil => exact hcs
  | cons c segment ih =>
    obtain ⟨hc, hsegment⟩ := List.forall_mem_cons.mp h
    have hne (d : Char) (hd : isPlainChar d = false) : c ≠ d := ne_of_isPlainChar hc hd
    simp [takeSegments, ih hsegment, hne '?' (by decide), hne '#' (by decide),
      hne '/' (by decide), hne '\\' (by decide)]

theorem takeSegments_joinWith (special : Bool) {segments : List (List Char)} (hne : segments ≠ [])
    (h : ∀ segment ∈ segments, IsPlainSegment segment) :
    takeSegments special (Text.joinWith ['/'] segments) = (segments, []) := by
  induction segments with
  | nil => exact absurd rfl hne
  | cons segment segments ih =>
    obtain ⟨hsegment, hsegments⟩ := List.forall_mem_cons.mp h
    cases segments with
    | nil =>
      have hread := @takeSegments_append segment hsegment.plain special [] [] [] [] rfl
      simpa [Text.joinWith] using hread
    | cons next segments =>
      have hrest := ih (by simp) hsegments
      have hslash : takeSegments special ('/' :: Text.joinWith ['/'] (next :: segments))
          = ([] :: next :: segments, []) := by
        simp [takeSegments, hrest]
      have hread := takeSegments_append hsegment.plain special hslash
      simpa [Text.joinWith] using hread

/-! ## Paths that end with a slash -/

theorem endsWithSlash_iff {path : List Char} :
    endsWithSlash path = true ↔ ∃ before, path = before ++ ['/'] := by
  rw [endsWithSlash, decide_eq_true_iff, List.getLast?_eq_some_iff]

/-- What ends with a slash is no drive. -/
theorem not_isNormalDrive_of_endsWithSlash {path : List Char} (h : endsWithSlash path = true) :
    isNormalDrive (path.drop 1) = false := by
  obtain ⟨before, rfl⟩ := endsWithSlash_iff.mp h
  match before with
  | [] => rfl
  | [_] => rfl
  | [_, _] => rfl
  | _ :: _ :: _ :: _ => simp [isNormalDrive]

/-- Nothing stands behind the last slash, so there is nothing to take away. -/
theorem popSegment_of_endsWithSlash (kind : SchemeKind) {path : List Char}
    (h : endsWithSlash path = true) : popSegment kind path = path := by
  obtain ⟨before, rfl⟩ := endsWithSlash_iff.mp h
  simp [popSegment, lastSegment, dropLastSegment, isNormalDrive]

theorem addSegment_plain (kind : SchemeKind) (slash : Bool) {path segment : List Char}
    (hpath : endsWithSlash path = true) (h : IsPlainSegment segment) :
    addSegment kind slash path segment = path ++ segment ++ if slash then ['/'] else [] := by
  simp only [addSegment, not_isNormalDrive_of_endsWithSlash hpath, encode_plain h.plain,
    h.not_isDoubleDot, h.not_isSingleDot, h.not_isDrive, Bool.and_false, Bool.false_eq_true,
    if_false]

theorem addSegments_plain (kind : SchemeKind) {path : List Char} {segments : List (List Char)}
    (hpath : endsWithSlash path = true) (h : ∀ segment ∈ segments, IsPlainSegment segment) :
    addSegments kind path segments = path ++ Text.joinWith ['/'] segments := by
  induction segments generalizing path with
  | nil => simp [addSegments, Text.joinWith]
  | cons segment segments ih =>
    obtain ⟨hsegment, hsegments⟩ := List.forall_mem_cons.mp h
    cases segments with
    | nil => simp [addSegments, Text.joinWith, addSegment_plain kind false hpath hsegment]
    | cons next segments =>
      have hstep := addSegment_plain kind true hpath hsegment
      have hslash : endsWithSlash (path ++ segment ++ ['/']) = true :=
        endsWithSlash_iff.mpr ⟨_, rfl⟩
      rw [addSegments, hstep, if_pos rfl, ih hslash hsegments]
      · simp [Text.joinWith]
      · simp

theorem dropWhile_slash_eq_self_iff {path : List Char} :
    path.dropWhile (· == '/') = path ↔ path.head? ≠ some '/' := by
  rw [List.dropWhile_eq_self_iff]
  cases path <;> simp

/-- What is put behind a path keeps it as it is, unless it starts with a slash. -/
theorem settlePath_append {kind : SchemeKind} {path behind : List Char}
    (hpath : settlePath kind path = path) (hbehind : behind.head? ≠ some '/') :
    settlePath kind (path ++ behind) = path ++ behind := by
  unfold settlePath at hpath ⊢
  split
  · rename_i hkind
    rw [if_pos hkind] at hpath
    cases path with
    | nil => cases hpath
    | cons c path =>
      obtain ⟨rfl, hrest⟩ := List.cons.inj hpath
      rw [List.dropWhile_cons_of_pos (by rfl)] at hrest
      have hfixed : (path ++ behind).dropWhile (· == '/') = path ++ behind := by
        rw [dropWhile_slash_eq_self_iff] at hrest ⊢
        cases path with
        | nil => exact hbehind
        | cons d path => exact hrest
      rw [List.cons_append, List.dropWhile_cons_of_pos (by rfl), hfixed]
  · rfl

namespace IsPlainPath

variable {path : List Char}

/-- A plain path starts with a plain character. -/
theorem exists_cons (h : IsPlainPath path) : ∃ c cs, path = c :: cs ∧ isPlainChar c = true := by
  obtain ⟨segments, hne, rfl, hsegments⟩ := h
  cases segments with
  | nil => exact absurd rfl hne
  | cons segment segments =>
    have hsegment := hsegments segment (by simp)
    obtain ⟨c, cs, rfl⟩ := List.exists_cons_of_ne_nil hsegment.ne_nil
    refine ⟨c, ?_⟩
    cases segments with
    | nil => exact ⟨cs, rfl, hsegment.plain c (by simp)⟩
    | cons next segments => exact ⟨_, rfl, hsegment.plain c (by simp)⟩

/-- No character but the slash means anything in a plain path. -/
theorem ne_of_mem (h : IsPlainPath path) {c d : Char} (hc : c ∈ path)
    (hd : isPlainChar d = false) (hslash : d ≠ '/') : c ≠ d := by
  obtain ⟨segments, -, rfl, hsegments⟩ := h
  rcases Text.mem_joinWith hc with hbetween | ⟨segment, hsegment, hc⟩
  · rw [List.mem_singleton.mp hbetween]
    exact hslash.symm
  · exact ne_of_isPlainChar ((hsegments segment hsegment).plain c hc) hd

theorem extendPath_eq (h : IsPlainPath path) {kind : SchemeKind} {before : List Char}
    (hsettled : settlePath kind before = before) (hslash : endsWithSlash before = true) :
    extendPath kind before path = (before ++ path, []) := by
  obtain ⟨c, cs, hcons, hc⟩ := h.exists_cons
  have hhead : path.head? ≠ some '/' := by
    rw [hcons]
    exact fun heq => ne_of_isPlainChar hc (by decide) (Option.some.inj heq)
  obtain ⟨segments, hne, rfl, hsegments⟩ := h
  rw [extendPath, takeSegments_joinWith _ hne hsegments]
  simp only [addSegments_plain kind hslash hsegments, settlePath_append hsettled hhead]

/-! ## Reading a plain path relative to a URL -/

theorem toNat_of_mem (h : IsPlainPath path) {c : Char} (hc : c ∈ path) : 45 ≤ c.toNat := by
  by_cases hplain : isPlainChar c = true
  · have hplace := toNat_of_isPlainChar hplain
    omega
  · by_cases hslash : c = '/'
    · rw [hslash]
      decide
    · exact absurd rfl (h.ne_of_mem hc (Bool.not_eq_true _ ▸ hplain) hslash)

/-- There is nothing to ignore in a plain path. -/
theorem clean_eq (h : IsPlainPath path) : clean path = path := by
  have hkept {cs : List Char} (hcs : ∀ c ∈ cs, c ∈ path) :
      cs.dropWhile (fun c => decide (c.toNat ≤ 0x20)) = cs := by
    rw [List.dropWhile_eq_self_iff]
    intro hlength hblank
    have hplace := h.toNat_of_mem (hcs _ (List.getElem_mem hlength))
    have hle := of_decide_eq_true hblank
    omega
  unfold clean
  dsimp only
  rw [hkept fun _ => id, hkept fun c hc => List.mem_reverse.mp hc, List.reverse_reverse,
    List.filter_eq_self]
  intro c hc
  have hne (d : Char) (hd : d.toNat < 45) : (c == d) = false := by
    have hplace := h.toNat_of_mem hc
    refine beq_eq_false_iff_ne.mpr ?_
    rintro rfl
    omega
  rw [hne '\t' (by decide), hne '\n' (by decide), hne '\r' (by decide)]
  rfl

/-- A scheme ends with a colon, and there is none. -/
theorem takeScheme?_eq_none (h : IsPlainPath path) : takeScheme? path = none := by
  unfold takeScheme?
  split
  · dsimp only
    split
    · rename_i rest hrest
      rw [List.span_eq_takeWhile_dropWhile] at hrest
      have hbehind : path.dropWhile _ = ':' :: rest := hrest
      have hcolon : ':' ∈ path :=
        (List.dropWhile_suffix _).subset (hbehind ▸ List.mem_cons_self)
      exact absurd rfl (h.ne_of_mem hcolon (by decide) (by decide))
    · rfl
  · rfl

theorem not_startsWithDrive (h : IsPlainPath path) : startsWithDrive path = false := by
  have hdrive {letter mark : Char} (hmark : mark ∈ path) : isDrive [letter, mark] = false :=
    isDrive_eq_false (h.ne_of_mem hmark (by decide) (by decide))
      (h.ne_of_mem hmark (by decide) (by decide))
  unfold startsWithDrive
  split
  · exact hdrive (by simp)
  · rw [hdrive (by simp), Bool.false_and]
  · rfl

theorem parseBeside_eq (h : IsPlainPath path) {base : Url} {kind : SchemeKind}
    (hsettled : settlePath kind base.path = base.path) (hslash : endsWithSlash base.path = true) :
    parseBeside kind base path
      = { base with path := base.path ++ path, query := none, fragment := none } := by
  have hfolder : base.path.isEmpty = false := by
    obtain ⟨before, hbefore⟩ := endsWithSlash_iff.mp hslash
    simp [hbefore]
  obtain ⟨c, cs, rfl, hc⟩ := h.exists_cons
  have hquery := ne_of_isPlainChar hc (show isPlainChar '?' = false by decide)
  have hfragment := ne_of_isPlainChar hc (show isPlainChar '#' = false by decide)
  unfold parseBeside
  split
  · contradiction
  · rename_i heq
    exact absurd (List.cons.inj heq).1 hquery
  · rename_i heq
    exact absurd (List.cons.inj heq).1 hfragment
  · simp [popSegment_of_endsWithSlash kind hslash, hfolder, h.extendPath_eq hsettled hslash,
      withQueryAndFragment]

end IsPlainPath

theorem parseFile_eq_beside {c : Char} (h : isSlash c = false) (base : Option Url)
    (cs : List Char) : parseFile base (c :: cs) = parseFile.beside base (c :: cs) := by
  cases cs <;> simp [parseFile, h]

/-- **Relative to a URL** of a special scheme whose path ends with a slash, a plain path is that URL
with the path behind its own. -/
theorem join_plain {base : Url} (hbase : base.Settled)
    (hspecial : (SchemeKind.ofScheme base.scheme).isSpecial = true)
    (hslash : endsWithSlash base.path = true) {path : List Char} (h : IsPlainPath path) :
    base.join path
      = .ok { base with path := base.path ++ path, query := none, fragment := none } := by
  have hroot : base.isRootless = false := by
    rw [isRootless, Option.isNone_eq_false_iff.mpr (hbase.authority hspecial), Bool.false_and]
  obtain ⟨c, cs, rfl, hc⟩ := h.exists_cons
  have hfragment := ne_of_isPlainChar hc (show isPlainChar '#' = false by decide)
  have hnoSlash : isSlash c = false := by
    rw [isSlash, beq_eq_false_iff_ne.mpr (ne_of_isPlainChar hc (by decide)),
      beq_eq_false_iff_ne.mpr (ne_of_isPlainChar hc (by decide)), Bool.or_self]
  unfold join parseFrom
  simp only [h.clean_eq, h.takeScheme?_eq_none, hroot, Bool.false_eq_true, if_false]
  split
  · rename_i heq
    exact absurd (List.cons.inj heq).1 hfragment
  · split
    · rename_i hkind
      have hsettled : settlePath .file base.path = base.path := hkind ▸ hbase.path
      rw [parseFile_eq_beside hnoSlash, parseFile.beside]
      simp only [h.not_startsWithDrive, Bool.false_eq_true, if_false,
        h.parseBeside_eq hsettled hslash]
    · rw [parseRelative]
      simp only [hnoSlash, Bool.false_eq_true, if_false, h.parseBeside_eq hbase.path hslash]

end Url

end AmdModules
