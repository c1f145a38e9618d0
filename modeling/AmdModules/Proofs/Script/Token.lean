import AmdModules.Proofs.Script.Blank
import AmdModules.Script.Token
import Mathlib.Data.List.TakeDrop

/-!
# Tokens cut the text

Every reader of the lexer leaves an end of the text it was given, and the bytes it counts are the
bytes in front of that end. `readKind_split` says so of the token a text starts with, whatever it
is, and `readToken_split` of a token behind blank space; `readKind_mark` says more of marks, whose
spelling is known.
-/

set_option autoImplicit false

namespace AmdModules.Script

open Text

theorem byteLength_take_of_suffix {rest cs : List Char} (h : rest <:+ cs) :
    ∃ passed, cs = passed ++ rest
      ∧ byteLength (cs.take (cs.length - rest.length)) = byteLength passed := by
  obtain ⟨passed, rfl⟩ := h
  exact ⟨passed, rfl, by simp⟩

theorem span_suffix (p : Char → Bool) (cs : List Char) : (cs.span p).2 <:+ cs := by
  rw [List.span_eq_takeWhile_dropWhile]
  exact List.dropWhile_suffix p

/-! ## Names and numbers -/

theorem readEscapedName_suffix {name name' cs rest : List Char} {fuel : Nat}
    (h : readEscapedName name fuel cs = some (name', rest)) : rest <:+ cs := by
  induction fuel generalizing name cs with
  | zero =>
    cases h
    exact List.suffix_refl _
  | succ fuel ih =>
    rw [readEscapedName.eq_def] at h
    dsimp only at h
    split at h
    · rename_i cs
      simp only [Option.bind_eq_bind, Option.bind_eq_some_iff, Prod.exists] at h
      obtain ⟨spelled, length, -, h⟩ := h
      have hdrop : cs.drop length <:+ '\\' :: 'u' :: cs :=
        (List.drop_suffix _ _).trans ((List.suffix_cons _ _).trans (List.suffix_cons _ _))
      rcases spelled with _ | ⟨c, _ | ⟨d, spelled⟩⟩
      · exact absurd h (by simp)
      · obtain ⟨-, h⟩ := Option.ite_none_right_eq_some.mp h
        exact (ih h).trans hdrop
      · exact absurd h (by simp)
    · exact absurd h (by simp)
    · split at h
      · exact (ih h).trans (List.suffix_cons _ _)
      · cases h
        exact List.suffix_refl _
    · cases h
      exact List.suffix_refl _

theorem readName_suffix {name cs rest : List Char} {escaped : Bool}
    (h : readName cs = some (name, rest, escaped)) : rest <:+ cs := by
  have hspan := span_suffix isNamePart cs
  unfold readName at h
  dsimp only at h
  split at h
  · obtain ⟨⟨name', rest'⟩, hread, heq⟩ := Option.map_eq_some_iff.mp h
    cases heq
    exact (readEscapedName_suffix hread).trans (by simpa [*] using hspan)
  · cases h
    exact hspan

/-- A name that is spelled without escapes is the text in front of what follows it. -/
theorem readName_plain {name cs rest : List Char} (h : readName cs = some (name, rest, false)) :
    cs = name ++ rest := by
  unfold readName at h
  rw [List.span_eq_takeWhile_dropWhile] at h
  dsimp only at h
  split at h
  · obtain ⟨⟨name', rest'⟩, -, heq⟩ := Option.map_eq_some_iff.mp h
    exact absurd heq (by simp)
  · cases h
    exact (List.takeWhile_append_dropWhile).symm

theorem endNumber_suffix {cs rest : List Char} (h : endNumber cs = some rest) : rest <:+ cs := by
  unfold endNumber at h
  split at h
  · split at h
    · exact absurd h (by simp)
    · cases h
      exact List.suffix_refl _
  · cases h
    exact List.suffix_refl _

theorem readExponent_suffix {cs rest : List Char} (h : readExponent cs = some rest) :
    rest <:+ cs := by
  unfold readExponent at h
  split at h
  · rename_i c after
    split at h
    · obtain ⟨-, h⟩ := Option.ite_none_left_eq_some.mp h
      cases h
      refine (span_suffix _ _).trans (List.IsSuffix.trans ?_ (List.suffix_cons _ _))
      split
      · exact List.suffix_cons _ _
      · exact List.suffix_cons _ _
      · exact List.suffix_refl _
    · cases h
      exact List.suffix_refl _
  · cases h
    exact List.suffix_refl _

theorem readDigits_suffix (isOne : Char → Bool) (cs : List Char) :
    (readDigits isOne cs).2 <:+ cs :=
  span_suffix _ cs

theorem readNumber_suffix {cs rest : List Char} (h : readNumber cs = some rest) : rest <:+ cs := by
  have hradix : ∀ {isOne : Char → Bool} {cs : List Char},
      (if (readDigits isOne cs).1.isEmpty then none
        else endNumber (if startsWith ['n'] (readDigits isOne cs).2
          then (readDigits isOne cs).2.drop 1 else (readDigits isOne cs).2)) = some rest →
      rest <:+ cs := by
    intro isOne cs h
    obtain ⟨-, h⟩ := Option.ite_none_left_eq_some.mp h
    refine (endNumber_suffix h).trans (List.IsSuffix.trans ?_ (readDigits_suffix isOne cs))
    split
    · exact List.drop_suffix _ _
    · exact List.suffix_refl _
  have htwo : ∀ {a b : Char} {cs : List Char}, rest <:+ cs → rest <:+ a :: b :: cs :=
    fun h => h.trans ((List.suffix_cons _ _).trans (List.suffix_cons _ _))
  unfold readNumber at h
  dsimp only at h
  split at h
  · exact htwo (hradix h)
  · exact htwo (hradix h)
  · exact htwo (hradix h)
  · exact htwo (hradix h)
  · exact htwo (hradix h)
  · exact htwo (hradix h)
  · have hspan := readDigits_suffix isDigit cs
    split at h
    · exact (endNumber_suffix h).trans hspan
    · split at h
      · rename_i hdot
        rw [hdot] at hspan
        obtain ⟨after, hexp, h⟩ := Option.bind_eq_some_iff.mp h
        exact (endNumber_suffix h).trans ((readExponent_suffix hexp).trans
          ((readDigits_suffix _ _).trans ((List.suffix_cons _ _).trans hspan)))
      · rename_i hn
        rw [hn] at hspan
        exact (endNumber_suffix h).trans ((List.suffix_cons _ _).trans hspan)
      · obtain ⟨after, hexp, h⟩ := Option.bind_eq_some_iff.mp h
        exact (endNumber_suffix h).trans ((readExponent_suffix hexp).trans hspan)

/-! ## String literals -/

/-- The place a literal ends at, and what follows it. -/
def Quoted.behind : Quoted → Nat × List Char
  | .ended _ offset rest | .badEscape offset rest => (offset, rest)

theorem readQuoted_split (quote : Char) (value : List Char) (owed offset : Nat) (cs : List Char) :
    ∃ passed, cs = passed ++ (readQuoted quote value owed offset cs).behind.2
      ∧ (readQuoted quote value owed offset cs).behind.1 = offset + byteLength passed := by
  fun_induction readQuoted quote value owed offset cs
  case case1 => exact ⟨[], by simp [Quoted.behind], by simp [Quoted.behind]⟩
  case case3 | case5 => exact ⟨[_], rfl, by simp only [Quoted.behind, byteLength_cons]; rfl⟩
  case case6 => exact ⟨[], by simp [Quoted.behind], by simp [Quoted.behind]⟩
  all_goals
    rename_i ih
    obtain ⟨passed, hcs, hoffset⟩ := ih
    refine ⟨_ :: passed, by rw [List.cons_append, ← hcs], ?_⟩
    rw [hoffset, byteLength_cons]
    omega

/-! ## Marks -/

theorem marks_spelling : ∀ m ∈ marks, m.2 = m.1.toList ∧ m.1.utf8ByteSize = byteLength m.2 := by
  decide

theorem readMark?_eq_some {cs rest : List Char} {m : String} (h : readMark? cs = some (m, rest)) :
    cs = m.toList ++ rest ∧ m.utf8ByteSize = byteLength m.toList := by
  unfold readMark? at h
  obtain ⟨⟨text, spelling⟩, hfind, heq⟩ := Option.map_eq_some_iff.mp h
  cases heq
  obtain ⟨hspelling, hsize⟩ := marks_spelling _ (List.mem_of_find?_eq_some hfind)
  have hstarts := List.find?_some hfind
  simp only [Bool.and_eq_true, startsWith_iff] at hstarts hspelling hsize
  obtain ⟨⟨after, rfl⟩, -⟩ := hstarts
  rw [← hspelling]
  exact ⟨by simp, hsize⟩

/-! ## Tokens -/

/-- A token and what follows it are the text. -/
theorem readKind_split (cs : List Char) :
    ∃ passed, cs = passed ++ (readKind cs).2.2 ∧ (readKind cs).2.1 = byteLength passed := by
  have hone : ∀ (c : Char) (rest : List Char), ∃ passed, c :: rest = passed ++ rest
      ∧ c.utf8Size = byteLength passed := fun c rest => ⟨[c], rfl, by simp⟩
  unfold readKind
  dsimp only
  split
  · exact ⟨[], rfl, rfl⟩
  · rename_i c rest
    split
    · split
      · rename_i name rest' h
        exact ⟨name, readName_plain h, rfl⟩
      · rename_i name rest' h
        exact byteLength_take_of_suffix (readName_suffix h)
      · exact hone c rest
    · split
      · obtain ⟨passed, hrest, hoffset⟩ := readQuoted_split c [] 0 c.utf8Size rest
        split <;> rename_i h <;> rw [h] at hrest hoffset <;>
          exact ⟨c :: passed, by rw [hrest]; rfl, by simpa [Quoted.behind] using hoffset⟩
      · split
        · split
          · rename_i rest' h
            exact byteLength_take_of_suffix (readNumber_suffix h)
          · exact hone c rest
        · split
          · rename_i m rest' h
            exact ⟨m.toList, (readMark?_eq_some h).1, (readMark?_eq_some h).2⟩
          · exact hone c rest

/-- A mark is its spelling. -/
theorem readKind_mark {cs : List Char} {m : String} (h : (readKind cs).1 = .mark m) :
    cs = m.toList ++ (readKind cs).2.2 ∧ (readKind cs).2.1 = byteLength m.toList := by
  unfold readKind at h ⊢
  dsimp only at h ⊢
  split at h
  · simp at h
  · rename_i c rest
    split at h
    · split at h
      · simp at h
      · split at h <;> simp at h
      · simp at h
    · split at h
      · split at h <;> simp at h
      · split at h
        · split at h <;> simp at h
        · split at h
          · rename_i m' rest' hmark
            obtain rfl : m' = m := by simpa using h
            simp only [*, ↓reduceIte, Bool.false_eq_true]
            exact readMark?_eq_some hmark
          · simp at h

/-! ## Tokens behind blank space -/

/-- How a reading cuts the text it was made from: blank space, the token, the rest. -/
structure Reading.Cuts (r : Reading) (offset : Nat) (cs : List Char) : Prop where
  blank : ∃ passed, cs = passed ++ r.here ∧ r.hereOffset = offset + byteLength passed
  token : ∃ passed, r.here = passed ++ r.rest ∧ r.token.span.stop = r.hereOffset + byteLength passed
  le_start : offset ≤ r.token.span.start
  start_le : r.token.span.start ≤ r.hereOffset

theorem readToken_cuts (lineEnded : Bool) (comments : List Span) (offset : Nat) (cs : List Char) :
    (readToken lineEnded comments offset cs).Cuts offset cs := by
  obtain ⟨passed, hcs, hoffset, -⟩ := skipBlank_split .space 0 offset lineEnded none comments cs
  obtain ⟨word, hword, hbytes⟩ :=
    readKind_split (skipBlank .space 0 offset lineEnded none comments cs).rest
  have hstart : offset ≤ (readToken lineEnded comments offset cs).token.span.start
      ∧ (readToken lineEnded comments offset cs).token.span.start
        ≤ (readToken lineEnded comments offset cs).hereOffset := by
    simp only [readToken]
    cases hmarker : (skipBlank .space 0 offset lineEnded none comments cs).marker with
    | none => simp only [Option.getD_none]; omega
    | some m =>
      rcases skipBlank_marker hmarker with h | h
      · exact absurd h (by simp)
      · simpa using h
  exact ⟨⟨passed, hcs, hoffset⟩, ⟨word, hword, by simp only [readToken]; rw [hbytes]⟩,
    hstart.1, hstart.2⟩

namespace Reading.Cuts

variable {r : Reading} {offset : Nat} {text cs : List Char}

theorem here_le (h : r.Cuts offset cs) : r.hereOffset ≤ r.token.span.stop := by
  obtain ⟨passed, -, hstop⟩ := h.token
  omega

theorem from_here (h : r.Cuts offset cs) (hcs : From text offset cs) :
    From text r.hereOffset r.here := by
  obtain ⟨passed, rfl, hoffset⟩ := h.blank
  rw [hoffset]
  exact hcs.append

theorem from_rest (h : r.Cuts offset cs) (hcs : From text offset cs) :
    From text r.token.span.stop r.rest := by
  obtain ⟨passed, hhere, hstop⟩ := h.token
  rw [hstop]
  exact (hhere ▸ h.from_here hcs : From text r.hereOffset (passed ++ r.rest)).append

end Reading.Cuts

/-- Comments met before have no influence on a reading. -/
theorem readToken_append (lineEnded : Bool) (older : List Span) (offset : Nat) (cs : List Char) :
    readToken lineEnded older offset cs
      = { readToken lineEnded [] offset cs with
          comments := (readToken lineEnded [] offset cs).comments ++ older } := by
  have h := @skipBlank_append .space 0 offset lineEnded none [] cs older
  rw [List.nil_append] at h
  simp only [readToken, h]

/-- The comments of a reading lie between the place it started at and its token. -/
theorem readToken_comments {lineEnded : Bool} {offset : Nat} {cs : List Char} {k : Span}
    (hk : k ∈ (readToken lineEnded [] offset cs).comments) :
    offset ≤ k.start ∧ k.stop ≤ (readToken lineEnded [] offset cs).hereOffset := by
  obtain ⟨new, hnew, hbounds⟩ :=
    @skipBlank_comments .space 0 offset lineEnded none [] cs (Nat.le_refl _)
  refine hbounds k ?_
  rw [List.append_nil] at hnew
  rw [← hnew]
  exact hk

/-- Where the comments met before end behind their start, all comments do. -/
theorem start_le_stop_of_mem_readToken {lineEnded : Bool} {older : List Span} {offset : Nat}
    {cs : List Char} (holder : ∀ k ∈ older, k.start ≤ k.stop) :
    ∀ k ∈ (readToken lineEnded older offset cs).comments, k.start ≤ k.stop :=
  @start_le_stop_of_mem_skipBlank .space 0 offset lineEnded none older cs (Nat.le_refl _) holder

/-- In front of a token there is only white space and comments. -/
theorem readToken_covers {lineEnded : Bool} {offset : Nat} {cs before after : List Char} {c : Char}
    (hcs : cs = before ++ c :: after)
    (hlt : offset + byteLength before < (readToken lineEnded [] offset cs).hereOffset) :
    Covered (readToken lineEnded [] offset cs).comments c (offset + byteLength before) :=
  skipBlank_covers (Nat.le_refl _) (fun _ => .inl rfl) hcs hlt

/-- A mark is spelled where it stands, and ends behind its spelling. -/
theorem readToken_mark {lineEnded : Bool} {comments : List Span} {offset : Nat} {cs : List Char}
    {m : String} (h : (readToken lineEnded comments offset cs).token.kind = .mark m) :
    (readToken lineEnded comments offset cs).here
        = m.toList ++ (readToken lineEnded comments offset cs).rest
      ∧ (readToken lineEnded comments offset cs).token.span.stop
        = (readToken lineEnded comments offset cs).hereOffset + byteLength m.toList := by
  have hmark := @readKind_mark (skipBlank .space 0 offset lineEnded none comments cs).rest m h
  refine ⟨hmark.1, ?_⟩
  simp only [readToken]
  rw [hmark.2]

end AmdModules.Script
