import AmdModules.Proofs.Layout.Member
import AmdModules.Proofs.Reread.Lexer

/-!
# Tokens of a filled text

A token of the filled text is the token of the text if nothing is put in between the place the
reading starts at and the end of the token. Regular expressions and the parts of templates are read
over the same way.
-/

set_option autoImplicit false

namespace AmdModules.Script

open Text

/-! ## Blank space -/

/-- Two ways to skip that differ only in where a comment started. -/
inductive Skipping.SameAs : Skipping → Skipping → Prop
  | space : SameAs .space .space
  | line {start start' : Nat} : SameAs (.lineComment start) (.lineComment start')
  | block {start start' : Nat} : SameAs (.blockComment start) (.blockComment start')

/-- Whether a text starts with blank space. -/
def startsBlank (lineEnded : Bool) : List Char → Bool
  | [] => false
  | c :: cs =>
    isLineEnd c || isSpace c || (c == '/' && startsWith ['/'] cs)
      || (c == '/' && startsWith ['*'] cs)
      || (c == '<' && startsWith ['!', '-', '-'] cs)
      || (lineEnded && c == '-' && startsWith ['-', '>'] cs)

/-- Where no blank space starts none is skipped. -/
theorem skipBlank_of_startsBlank {lineEnded : Bool} {cs : List Char}
    (h : startsBlank lineEnded cs = false) (o : Nat) (marker : Option Nat) (comments : List Span) :
    skipBlank .space 0 o lineEnded marker comments cs = ⟨cs, o, lineEnded, marker, comments⟩ := by
  rcases cs with _ | ⟨c, cs⟩
  · rfl
  · simp only [startsBlank, Bool.or_eq_false_iff] at h
    obtain ⟨⟨⟨⟨⟨h₁, h₂⟩, h₃⟩, h₄⟩, h₅⟩, h₆⟩ := h
    rw [skipBlank]
    simp only [h₁, h₂, h₃, h₄, h₅, h₆, Bool.false_eq_true, ↓reduceIte]

/-- The same stretch of blank space, in the text and in the filled text. -/
structure Blank.Twin {text : List Char} (f : Filling text) (b b' : Blank) : Prop where
  rest : b'.rest = f.fill b.rest
  offset : f.Moved b.offset b'.offset
  lineEnded : b'.lineEnded = b.lineEnded
  marker : Option.Rel f.Moved b.marker b'.marker

namespace Filling

variable {text : List Char} {f : Filling text} {cs : List Char}

theorem eq_of_from {o : Nat} {ds : List Char} (h : From text o cs) (h' : From text o ds) :
    cs = ds := by
  obtain ⟨passed, rfl, hlength⟩ := h.sub h' (Nat.le_refl _)
  obtain rfl : passed = [] := byteLength_eq_zero.mp (by omega)
  rfl

theorem Moved.of_from {o o' : Nat} (h : f.Moved o o') (hcs : From text o cs) :
    o' + byteLength (f.fill cs) = byteLength (f.fill text) := by
  obtain ⟨cs', hcs', hlength⟩ := h
  rw [eq_of_from hcs hcs']
  exact hlength

/-- One character further on, where nothing is put in. -/
theorem Moved.tail {o o' : Nat} {c : Char} (h : f.Moved o o') (hcs : From text o (c :: cs))
    (hput : f.put (o + c.utf8Size) = []) : f.Moved (o + c.utf8Size) (o' + c.utf8Size) := by
  refine ⟨cs, hcs.tail, ?_⟩
  have hlength := h.of_from hcs
  rw [fill_cons_of_put hcs hput, byteLength_cons] at hlength
  omega

/-- Some characters further on. -/
theorem Moved.append {o o' : Nat} {passed rest : List Char} (h : f.Moved o o')
    (hcs : From text o (passed ++ rest))
    (hcalm : ∀ x, o < x → x ≤ o + byteLength passed → f.put x = []) :
    f.Moved (o + byteLength passed) (o' + byteLength passed) := by
  refine ⟨rest, hcs.append, ?_⟩
  have hlength := h.of_from hcs
  rw [fill_quiet hcs hcalm, byteLength_append] at hlength
  omega

theorem orElse_rel {marker marker' : Option Nat} {o o' : Nat}
    (h : Option.Rel f.Moved marker marker') (hmoved : f.Moved o o') : Option.Rel f.Moved (marker <|> some o) (marker' <|> some o') := by
  cases h with
  | none => exact .some hmoved
  | some h => exact .some h

/-- What tells blank space is looked for behind a character that nothing is put in behind. -/
theorem startsWith_blank_fill (h : cs <:+ text) :
    startsWith ['/'] (f.fill cs) = startsWith ['/'] cs
      ∧ startsWith ['*'] (f.fill cs) = startsWith ['*'] cs
      ∧ startsWith ['!', '-', '-'] (f.fill cs) = startsWith ['!', '-', '-'] cs
      ∧ startsWith ['-', '>'] (f.fill cs) = startsWith ['-', '>'] cs :=
  ⟨startsWith_fill h (by decide), startsWith_fill h (by decide), startsWith_fill h (by decide),
    startsWith_fill h (by decide)⟩

theorem startsBlank_fill (lineEnded : Bool) (h : cs <:+ text) :
    startsBlank lineEnded (f.fill cs) = startsBlank lineEnded cs := by
  rcases cs with _ | ⟨c, cs⟩
  · rfl
  cases hc : isStop c with
  | true =>
    rw [fill_eq_cons]
    obtain rfl | rfl | rfl | rfl := isStop_iff.mp hc
    all_goals simp [startsBlank]
  | false =>
    obtain ⟨hslash, hstar, hbang, hdash⟩ := startsWith_blank_fill (f := f) (suffix_tail h)
    simp only [fill_cons h hc, startsBlank, hslash, hstar, hbang, hdash]

/-- One character further on, on the way to a place up to which nothing is put in. -/
theorem step_quiet {c : Char} {o o' stop : Nat} (hcs : From text o (c :: cs))
    (hmoved : f.Moved o o') (hle : o + c.utf8Size ≤ stop)
    (hcalm : ∀ x, o < x → x ≤ stop → f.put x = []) :
    f.fill (c :: cs) = c :: f.fill cs ∧ f.Moved (o + c.utf8Size) (o' + c.utf8Size)
      ∧ ∀ x, o + c.utf8Size < x → x ≤ stop → f.put x = [] := by
  have hpos := c.utf8Size_pos
  have hput := hcalm (o + c.utf8Size) (by omega) hle
  exact ⟨fill_cons_of_put hcs hput, hmoved.tail hcs hput, fun x hlo hhi => hcalm x (by omega) hhi⟩

theorem skipBlank_fill {skipping skipping' : Skipping} {owed o o' : Nat} {lineEnded : Bool}
    {marker marker' : Option Nat} {comments comments' : List Span} (hcs : From text o cs)
    (hmoved : f.Moved o o') (hsame : skipping.SameAs skipping')
    (hmarker : Option.Rel f.Moved marker marker')
    (hcalm : ∀ x, o < x → x ≤ (skipBlank skipping owed o lineEnded marker comments cs).offset →
      f.put x = []) :
    Blank.Twin f (skipBlank skipping owed o lineEnded marker comments cs)
      (skipBlank skipping' owed o' lineEnded marker' comments' (f.fill cs)) := by
  fun_induction skipBlank skipping owed o lineEnded marker comments cs
    generalizing o' skipping' marker' comments'
  case case1 | case2 | case3 =>
    cases hsame
    exact ⟨rfl, hmoved, rfl, hmarker⟩
  case case15 lineEnded marker comments c cs h₁ h₂ h₃ h₄ h₅ h₆ =>
    cases hsame
    have hblank : startsBlank lineEnded (f.fill (c :: cs)) = false := by
      rw [startsBlank_fill _ (suffix_of_from hcs)]
      simp only [startsBlank, h₁, h₂, h₃, h₄, h₅, h₆, Bool.or_false]
    rw [skipBlank_of_startsBlank hblank]
    exact ⟨rfl, hmoved, rfl, hmarker⟩
  all_goals
    -- behind a character that is passed over nothing is put in
    obtain ⟨hfill, hmoved', hcalm'⟩ := step_quiet hcs hmoved (le_skipBlank_offset ..) hcalm
    obtain ⟨hslash, hstar, hbang, hdash⟩ :=
      startsWith_blank_fill (f := f) (suffix_of_from hcs.tail)
    rw [hfill]
  case case4 ih =>
    simp only [skipBlank]
    exact ih hcs.tail hmoved' hsame hmarker hcalm'
  case case5 hend ih =>
    cases hsame
    simp only [skipBlank, hend, ↓reduceIte]
    exact ih hcs.tail hmoved' .space hmarker hcalm'
  case case6 hend ih =>
    cases hsame
    simp only [skipBlank, hend]
    exact ih hcs.tail hmoved' .line hmarker hcalm'
  case case7 hclose ih =>
    cases hsame
    simp only [skipBlank, hslash, hclose, ↓reduceIte]
    exact ih hcs.tail hmoved' .space hmarker hcalm'
  case case8 hclose ih =>
    cases hsame
    simp only [skipBlank, hslash, hclose]
    exact ih hcs.tail hmoved' .block hmarker hcalm'
  case case9 h1 ih =>
    cases hsame
    simp only [skipBlank, h1, ↓reduceIte]
    exact ih hcs.tail hmoved' .space hmarker hcalm'
  case case10 h1 h2 ih =>
    cases hsame
    simp only [skipBlank, h1, h2, ↓reduceIte]
    exact ih hcs.tail hmoved' .space hmarker hcalm'
  case case11 h1 h2 h3 ih =>
    cases hsame
    simp only [skipBlank, hslash, h1, h2, h3, ↓reduceIte]
    exact ih hcs.tail hmoved' .line hmarker hcalm'
  case case12 h1 h2 h3 h4 ih =>
    cases hsame
    simp only [skipBlank, hslash, hstar, h1, h2, h3, h4, ↓reduceIte]
    exact ih hcs.tail hmoved' .block hmarker hcalm'
  case case13 h1 h2 h3 h4 h5 ih =>
    cases hsame
    simp only [skipBlank, hslash, hstar, hbang, h1, h2, h3, h4, h5, ↓reduceIte]
    exact ih hcs.tail hmoved' .line (orElse_rel hmarker hmoved) hcalm'
  case case14 h1 h2 h3 h4 h5 h6 ih =>
    cases hsame
    simp only [skipBlank, hslash, hstar, hbang, hdash, h1, h2, h3, h4, h5, h6, ↓reduceIte]
    exact ih hcs.tail hmoved' .line (orElse_rel hmarker hmoved) hcalm'

/-! ## Tokens -/

end Filling

/-- How far behind a token its reader looks. A parenthesis or a comma is known without that. -/
def TokenKind.reach (kind : TokenKind) : Nat :=
  if kind = .mark "(" ∨ kind = .mark "," then 0 else 1

theorem TokenKind.reach_eq_one {kind : TokenKind} (h : kind ≠ .mark "(") (h' : kind ≠ .mark ",") :
    kind.reach = 1 := by
  rw [reach, if_neg (by simp [h, h'])]

theorem ne_of_readMark? {cs rest : List Char} {m : String} (h : readMark? cs = some (m, rest)) :
    m ≠ "" := by
  have hmarks : ∀ m ∈ marks, m.1 ≠ "" := by decide
  obtain ⟨mark, hfind, heq⟩ := Option.map_eq_some_iff.mp h
  cases heq
  exact hmarks _ (List.mem_of_find?_eq_some hfind)

/-- Whether a text starts with a number. -/
def startsNumber (cs : List Char) : Bool :=
  match cs with
  | c :: rest => isDigit c || (c == '.' && ((rest.head?).map isDigit).getD false)
  | [] => false

section

variable {c : Char} {cs : List Char}

theorem readKind_name (h : (isNameStart c || c == '\\') = true) :
    readKind (c :: cs)
      = match readName (c :: cs) with
        | some (name, rest, false) => (.word (String.ofList name), byteLength name, rest)
        | some (name, rest, true) =>
          (if reservedWords.contains (String.ofList name) then .bad else .word (String.ofList name),
            byteLength ((c :: cs).take ((c :: cs).length - rest.length)), rest)
        | none => (.bad, c.utf8Size, cs) :=
  if_pos h

theorem readKind_string (h : (isNameStart c || c == '\\') = false)
    (hquote : (c == '\x22' || c == '\x27') = true) :
    readKind (c :: cs)
      = match readQuoted c [] 0 c.utf8Size cs with
        | .ended value bytes rest => (.string (String.ofList value), bytes, rest)
        | .badEscape bytes rest => (.bad, bytes, rest) :=
  (if_neg (Bool.eq_false_iff.mp h)).trans (if_pos hquote)

theorem readKind_number (h : (isNameStart c || c == '\\') = false)
    (hquote : (c == '\x22' || c == '\x27') = false) (hnumber : startsNumber (c :: cs) = true) :
    readKind (c :: cs)
      = match readNumber (c :: cs) with
        | some rest =>
          (.number (String.ofList ((c :: cs).take ((c :: cs).length - rest.length))),
            byteLength ((c :: cs).take ((c :: cs).length - rest.length)), rest)
        | none => (.bad, c.utf8Size, cs) :=
  (if_neg (Bool.eq_false_iff.mp h)).trans
    ((if_neg (Bool.eq_false_iff.mp hquote)).trans (if_pos hnumber))

theorem readKind_other (h : (isNameStart c || c == '\\') = false)
    (hquote : (c == '\x22' || c == '\x27') = false) (hnumber : startsNumber (c :: cs) = false) :
    readKind (c :: cs)
      = match readMark? (c :: cs) with
        | some (text, rest) => (.mark text, text.utf8ByteSize, rest)
        | none => (.bad, c.utf8Size, cs) :=
  (if_neg (Bool.eq_false_iff.mp h)).trans
    ((if_neg (Bool.eq_false_iff.mp hquote)).trans (if_neg (Bool.eq_false_iff.mp hnumber)))

end

namespace Filling

variable {text : List Char} {f : Filling text} {cs : List Char}

/-- What follows a token in the filled text. -/
def behind (f : Filling text) (kind : TokenKind) (rest : List Char) : List Char :=
  if kind.reach = 0 then f.full rest else f.fill rest

theorem take_quiet {o : Nat} {rest : List Char} (h : From text o cs) (hrest : rest <:+ cs)
    (hcalm : ∀ x, o < x → x ≤ o + byteLength (cs.take (cs.length - rest.length)) → f.put x = []) :
    (f.fill cs).take ((f.fill cs).length - (f.fill rest).length)
      = cs.take (cs.length - rest.length) := by
  obtain ⟨passed, rfl⟩ := hrest
  have htake : (passed ++ rest).take ((passed ++ rest).length - rest.length) = passed := by simp
  rw [htake] at hcalm ⊢
  rw [fill_quiet h hcalm]
  simp

theorem startsNumber_fill (h : cs <:+ text) : startsNumber (f.fill cs) = startsNumber cs := by
  rcases cs with _ | ⟨c, cs⟩
  · rfl
  by_cases hc : c = '.'
  · subst hc
    rw [fill_cons h rfl]
    simp only [startsNumber, head?_fill]
  · have hdot : (c == '.') = false := by simpa using hc
    simp only [startsNumber, fill_eq_cons, hdot, Bool.false_and]

theorem behind_eq_fill {kind : TokenKind} (h : kind.reach = 1) (rest : List Char) :
    f.behind kind rest = f.fill rest := by
  rw [behind, h]
  rfl

/-- A character that is no token at all. -/
theorem readKind_fill_bad {c : Char} {o : Nat} (h : From text o (c :: cs))
    (hcalm : ∀ x, o < x → x < o + c.utf8Size + TokenKind.bad.reach → f.put x = []) :
    ((.bad, c.utf8Size, f.full cs) : TokenKind × Nat × List Char)
      = (.bad, c.utf8Size, f.behind .bad cs) := by
  have hpos := c.utf8Size_pos
  have hreach : TokenKind.bad.reach = 1 := rfl
  rw [behind_eq_fill hreach, full_eq_fill]
  rw [gap_eq h.tail]
  exact hcalm _ (by omega) (by omega)

section

variable {c : Char} {o : Nat}

theorem readKind_fill_name (h : From text o (c :: cs))
    (hcalm : ∀ x, o < x → x < o + (readKind (c :: cs)).2.1 + (readKind (c :: cs)).1.reach →
      f.put x = []) (hname : (isNameStart c || c == '\\') = true) :
    readKind (f.fill (c :: cs)) = ((readKind (c :: cs)).1, (readKind (c :: cs)).2.1,
      f.behind (readKind (c :: cs)).1 (readKind (c :: cs)).2.2) := by
  have hread := readName_fill (f := f) (suffix_of_from h)
  rw [fill_eq_cons] at hread ⊢
  rw [readKind_name hname] at hcalm ⊢
  rw [readKind_name hname, hread]
  rcases hcase : readName (c :: cs) with _ | ⟨name, rest, _ | _⟩
  · rw [hcase] at hcalm
    exact readKind_fill_bad h hcalm
  · rfl
  · -- a name with escapes is longer in the text than its value
    rw [hcase] at hcalm
    have hreach : (if reservedWords.contains (String.ofList name) then .bad
        else .word (String.ofList name) : TokenKind).reach = 1 := by
      split <;> rfl
    have htake := take_quiet (f := f) h (readName_suffix hcase) fun x hlo hhi =>
      hcalm x hlo (by simp only [hreach]; omega)
    rw [fill_eq_cons] at htake
    simp only [Option.map_some, htake, behind_eq_fill hreach]

theorem readKind_fill_string (h : From text o (c :: cs))
    (hcalm : ∀ x, o < x → x < o + (readKind (c :: cs)).2.1 + (readKind (c :: cs)).1.reach →
      f.put x = []) (hname : (isNameStart c || c == '\\') = false)
    (hquote : (c == '\x22' || c == '\x27') = true) :
    readKind (f.fill (c :: cs)) = ((readKind (c :: cs)).1, (readKind (c :: cs)).2.1,
      f.behind (readKind (c :: cs)).1 (readKind (c :: cs)).2.2) := by
  rw [fill_eq_cons]
  rw [readKind_string hname hquote] at hcalm ⊢
  rw [readKind_string hname hquote]
  have hpos := c.utf8Size_pos
  have hle := le_readQuoted_behind c [] 0 c.utf8Size cs
  have hquiet : ∀ x, o < x → x ≤ o + (readQuoted c [] 0 c.utf8Size cs).behind.1 →
      f.put x = [] := by
    intro x hlo hhi
    refine hcalm x hlo ?_
    cases hread : readQuoted c [] 0 c.utf8Size cs with
    | ended value bytes rest =>
      rw [hread] at hhi
      exact Nat.lt_succ_of_le hhi
    | badEscape bytes rest =>
      rw [hread] at hhi
      exact Nat.lt_succ_of_le hhi
  rw [full_eq_fill (by rw [gap_eq h.tail]; exact hquiet _ (by omega) (by omega)),
    readQuoted_fill h.tail fun x hlo hhi => hquiet x (by omega) (by omega)]
  cases readQuoted c [] 0 c.utf8Size cs <;> rfl

theorem readKind_fill_number (h : From text o (c :: cs))
    (hcalm : ∀ x, o < x → x < o + (readKind (c :: cs)).2.1 + (readKind (c :: cs)).1.reach →
      f.put x = []) (hname : (isNameStart c || c == '\\') = false)
    (hquote : (c == '\x22' || c == '\x27') = false) (hnumber : startsNumber (c :: cs) = true) :
    readKind (f.fill (c :: cs)) = ((readKind (c :: cs)).1, (readKind (c :: cs)).2.1,
      f.behind (readKind (c :: cs)).1 (readKind (c :: cs)).2.2) := by
  have hsuffix := suffix_of_from h
  have hnumber' := (startsNumber_fill (f := f) hsuffix).trans hnumber
  have hread := readNumber_fill (f := f) hsuffix
  rw [fill_eq_cons] at hnumber' hread ⊢
  rw [readKind_number hname hquote hnumber] at hcalm ⊢
  rw [readKind_number hname hquote hnumber', hread]
  cases hcase : readNumber (c :: cs) with
  | none =>
    rw [hcase] at hcalm
    exact readKind_fill_bad h hcalm
  | some rest =>
    rw [hcase] at hcalm
    have htake := take_quiet (f := f) h (readNumber_suffix hcase) fun x hlo hhi =>
      hcalm x hlo (Nat.lt_succ_of_le hhi)
    rw [fill_eq_cons] at htake
    simp only [Option.map_some, htake]
    rfl

theorem readKind_fill_mark (h : From text o (c :: cs))
    (hcalm : ∀ x, o < x → x < o + (readKind (c :: cs)).2.1 + (readKind (c :: cs)).1.reach →
      f.put x = []) (hname : (isNameStart c || c == '\\') = false)
    (hquote : (c == '\x22' || c == '\x27') = false) (hnumber : startsNumber (c :: cs) = false) :
    readKind (f.fill (c :: cs)) = ((readKind (c :: cs)).1, (readKind (c :: cs)).2.1,
      f.behind (readKind (c :: cs)).1 (readKind (c :: cs)).2.2) := by
  have hsuffix := suffix_of_from h
  have hnumber' := (startsNumber_fill (f := f) hsuffix).trans hnumber
  have hread := readMark?_fill (f := f) hsuffix
  rw [fill_eq_cons] at hnumber' hread ⊢
  rw [readKind_other hname hquote hnumber] at hcalm ⊢
  rw [readKind_other hname hquote hnumber', hread]
  rcases hcase : readMark? (c :: cs) with _ | ⟨m, rest⟩
  · rw [hcase] at hcalm
    exact readKind_fill_bad h hcalm
  · rw [hcase] at hcalm
    obtain ⟨hcs, hsize⟩ := readMark?_eq_some hcase
    have hpos : byteLength m.toList ≠ 0 := fun hzero =>
      ne_of_readMark? hcase (String.toList_eq_nil_iff.mp (byteLength_eq_zero.mp hzero))
    rw [hcs] at h
    simp only [Option.map_some, behind]
    split
    · rfl
    · rw [full_eq_fill]
      rw [gap_eq h.append]
      refine hcalm _ (by omega) ?_
      simp only [hsize]
      omega

end

/-- A token that nothing is put into is the token it was. -/
theorem readKind_fill {o : Nat} (h : From text o cs)
    (hcalm : ∀ x, o < x → x < o + (readKind cs).2.1 + (readKind cs).1.reach → f.put x = []) :
    readKind (f.fill cs)
      = ((readKind cs).1, (readKind cs).2.1, f.behind (readKind cs).1 (readKind cs).2.2) := by
  rcases cs with _ | ⟨c, cs⟩
  · rfl
  cases hname : isNameStart c || c == '\\' with
  | true => exact readKind_fill_name h hcalm hname
  | false =>
    cases hquote : c == '\x22' || c == '\x27' with
    | true => exact readKind_fill_string h hcalm hname hquote
    | false =>
      cases hnumber : startsNumber (c :: cs) with
      | true => exact readKind_fill_number h hcalm hname hquote hnumber
      | false => exact readKind_fill_mark h hcalm hname hquote hnumber

end Filling

/-- The same token, in the text and in the filled text. -/
structure Token.Twin {text : List Char} (f : Filling text) (t t' : Token) : Prop where
  kind : t'.kind = t.kind
  onNewLine : t'.onNewLine = t.onNewLine
  start : f.Moved t.span.start t'.span.start
  stop : t.kind.reach = 1 → f.Moved t.span.stop t'.span.stop

/-- The same token with the text around it. -/
structure Reading.Twin {text : List Char} (f : Filling text) (r r' : Reading) : Prop where
  token : Token.Twin f r.token r'.token
  here : r'.here = f.fill r.here
  hereOffset : f.Moved r.hereOffset r'.hereOffset
  rest : r'.rest = f.behind r.token.kind r.rest
  length : r'.token.span.stop + r.hereOffset = r'.hereOffset + r.token.span.stop

namespace Filling

variable {text : List Char} {f : Filling text} {cs : List Char}

theorem lt_add_reach {cs rest : List Char} {kind : TokenKind} {bytes : Nat}
    (h : readKind cs = (kind, bytes, rest)) : 0 < bytes + kind.reach := by
  by_cases hreach : kind.reach = 1
  · omega
  · obtain ⟨m, hkind, hm⟩ : ∃ m, kind = .mark m ∧ m ≠ "" := by
      by_contra hnone
      refine hreach (TokenKind.reach_eq_one (fun h => hnone ?_) fun h => hnone ?_)
      · exact ⟨_, h, by decide⟩
      · exact ⟨_, h, by decide⟩
    have hsize : bytes = byteLength m.toList := by
      have := (@readKind_mark cs m (by rw [h, hkind])).2
      rwa [h] at this
    have hpos : byteLength m.toList ≠ 0 := fun hzero =>
      hm (String.toList_eq_nil_iff.mp (byteLength_eq_zero.mp hzero))
    omega

theorem getD_moved {marker marker' : Option Nat} {o o' : Nat} (hmoved : f.Moved o o')
    (h : Option.Rel f.Moved marker marker') : f.Moved (marker.getD o) (marker'.getD o') := by
  cases h with
  | none => exact hmoved
  | some h => exact h

/-- A reading as its blank space and its token. -/
theorem readToken_eq {lineEnded : Bool} {earlier : List Span} {o bytes : Nat} {rest : List Char}
    {kind : TokenKind} {blank : Blank}
    (hblank : skipBlank .space 0 o lineEnded none earlier cs = blank)
    (h : readKind blank.rest = (kind, bytes, rest)) :
    readToken lineEnded earlier o cs
      = { token :=
            { kind
              span := ⟨blank.marker.getD blank.offset, blank.offset + bytes⟩
              onNewLine := blank.lineEnded }
          here := blank.rest
          hereOffset := blank.offset
          rest
          comments := blank.comments } := by
  subst hblank
  simp only [readToken, h]

/-- **A token is read again** from a filled text if nothing is put in on the way to its end. -/
theorem readToken_twin (lineEnded : Bool) (earlier earlier' : List Span) {o o' : Nat}
    (hcs : From text o cs) (hmoved : f.Moved o o')
    (hcalm : ∀ x, o < x → x < (readToken lineEnded earlier o cs).token.span.stop
      + (readToken lineEnded earlier o cs).token.kind.reach → f.put x = []) :
    Reading.Twin f (readToken lineEnded earlier o cs)
      (readToken lineEnded earlier' o' (f.fill cs)) := by
  obtain ⟨blank, hskip⟩ : ∃ blank, skipBlank .space 0 o lineEnded none earlier cs = blank :=
    ⟨_, rfl⟩
  obtain ⟨⟨kind, bytes, rest⟩, hread⟩ : ∃ r, readKind blank.rest = r := ⟨_, rfl⟩
  have hle := le_skipBlank_offset .space 0 o lineEnded none earlier cs
  obtain ⟨passed, hpassed, hoffset, -⟩ := skipBlank_split .space 0 o lineEnded none earlier cs
  obtain ⟨word, hword, hbytes⟩ := readKind_split blank.rest
  have hpos := lt_add_reach hread
  rw [hskip] at hle hpassed hoffset
  rw [hread] at hword hbytes
  rw [readToken_eq hskip hread] at hcalm ⊢
  simp only at hword hbytes hcalm
  have hblank : Blank.Twin f blank (skipBlank .space 0 o' lineEnded none earlier' (f.fill cs)) := by
    rw [← hskip]
    refine skipBlank_fill hcs hmoved .space .none fun x hlo hhi => hcalm x hlo ?_
    rw [hskip] at hhi
    omega
  have hrest : From text blank.offset blank.rest := by
    rw [hpassed] at hcs
    rw [hoffset]
    exact hcs.append
  have hkind : readKind (f.fill blank.rest) = (kind, bytes, f.behind kind rest) := by
    have := readKind_fill hrest fun x hlo hhi => hcalm x (by omega) (by rwa [hread] at hhi)
    rwa [hread] at this
  rw [← hblank.rest] at hkind
  rw [readToken_eq rfl hkind]
  refine ⟨⟨rfl, hblank.lineEnded, getD_moved hblank.offset hblank.marker, fun hreach => ?_⟩,
    hblank.rest, hblank.offset, rfl, by simp only; omega⟩
  simp only at hreach ⊢
  rw [hword] at hrest
  rw [hbytes]
  exact hblank.offset.append hrest fun x hlo hhi => hcalm x (by omega) (by omega)

/-! ## Templates and regular expressions -/

theorem templateEscapeOk_fill (h : cs <:+ text) :
    templateEscapeOk (f.fill cs) = templateEscapeOk cs := by
  rcases cs with _ | ⟨c, cs⟩
  · rfl
  by_cases hc : c = '0'
  · subst hc
    rw [fill_cons h rfl]
    rcases cs with _ | ⟨d, cs⟩
    · rfl
    · rfl
  · have hescape := escape?_fill (f := f) h
    rw [fill_eq_cons] at hescape ⊢
    unfold templateEscapeOk
    split
    · rename_i heq
      exact absurd (List.cons.inj heq).1 hc
    · rename_i heq
      exact absurd (List.cons.inj heq).1 hc
    · rename_i heq
      cases heq
      rw [hescape]
      split
      · rename_i heq
        exact absurd (List.cons.inj heq).1 hc
      · rename_i heq
        exact absurd (List.cons.inj heq).1 hc
      · rename_i heq
        cases heq
        rfl
      · rename_i heq
        cases heq
    · rename_i heq
      cases heq

/-- A part of a template that nothing is put into is read again. -/
theorem readChunk_fill {wellFormed escaped : Bool} {o o' : Nat} {chunk : Chunk}
    (hcs : From text o cs) (hmoved : f.Moved o o')
    (hread : readChunk wellFormed escaped o cs = some chunk)
    (hcalm : ∀ x, o < x → x ≤ chunk.offset → f.put x = []) :
    ∃ stop', readChunk wellFormed escaped o' (f.fill cs)
        = some ⟨chunk.wellFormed, chunk.closes, stop', f.fill chunk.rest⟩
      ∧ f.Moved chunk.offset stop' := by
  fun_induction readChunk wellFormed escaped o cs generalizing o'
  case case1 => cases hread
  case case2 ih =>
    obtain ⟨hfill, hmoved', hcalm'⟩ :=
      step_quiet hcs hmoved (Nat.le_of_lt (readChunk_from hcs.tail hread).2) hcalm
    rw [hfill]
    exact ih hcs.tail hmoved' hread hcalm'
  case case3 hescaped hclose =>
    cases hread
    obtain ⟨hfill, hmoved', -⟩ := step_quiet hcs hmoved (Nat.le_refl _) hcalm
    rw [hfill]
    refine ⟨_, ?_, hmoved'⟩
    simp only [readChunk, hescaped, hclose, ↓reduceIte]
    rfl
  case case4 hescaped hclose hopen =>
    simp only [Bool.and_eq_true, beq_iff_eq, startsWith_iff] at hopen
    obtain ⟨rfl, rest, rfl⟩ := hopen
    rw [List.singleton_append] at hcs hread ⊢
    cases hread
    simp only at hcalm ⊢
    have hsize : '$'.utf8Size = 1 ∧ '\x7b'.utf8Size = 1 := by decide
    obtain ⟨hfill, hmoved', hcalm'⟩ := step_quiet hcs hmoved (by omega) hcalm
    obtain ⟨hfill', hmoved'', -⟩ := step_quiet hcs.tail hmoved' (by omega) hcalm'
    rw [hsize.1, hsize.2, Nat.add_assoc, Nat.add_assoc] at hmoved''
    rw [hfill, hfill']
    refine ⟨_, ?_, hmoved''⟩
    simp only [readChunk, hescaped]
    rfl
  case case5 hescaped hclose hopen hback ih =>
    obtain ⟨hfill, hmoved', hcalm'⟩ :=
      step_quiet hcs hmoved (Nat.le_of_lt (readChunk_from hcs.tail hread).2) hcalm
    have hsuffix := suffix_of_from hcs.tail
    rw [hfill]
    simp only [readChunk, hescaped, hclose, hback, templateEscapeOk_fill hsuffix,
      startsWith_fill hsuffix (by rfl : ['\x7b'].dropLast.any isStop = false), hopen]
    exact ih hcs.tail hmoved' hread hcalm'
  case case6 hescaped hclose hopen hback ih =>
    obtain ⟨hfill, hmoved', hcalm'⟩ :=
      step_quiet hcs hmoved (Nat.le_of_lt (readChunk_from hcs.tail hread).2) hcalm
    have hsuffix := suffix_of_from hcs.tail
    rw [hfill]
    simp only [readChunk, hescaped, hclose, hback,
      startsWith_fill hsuffix (by rfl : ['\x7b'].dropLast.any isStop = false), hopen]
    exact ih hcs.tail hmoved' hread hcalm'

/-- A regular expression that nothing is put into is read again. -/
theorem readRegexp_fill {escaped inClass : Bool} {o o' stop : Nat} {rest : List Char}
    (hcs : From text o cs) (hmoved : f.Moved o o')
    (hread : readRegexp escaped inClass o cs = some (stop, rest))
    (hcalm : ∀ x, o < x → x ≤ stop → f.put x = []) :
    ∃ stop', readRegexp escaped inClass o' (f.fill cs) = some (stop', f.fill rest)
      ∧ f.Moved stop stop' := by
  fun_induction readRegexp escaped inClass o cs generalizing o'
  case case1 | case2 => cases hread
  case case3 hline ih =>
    obtain ⟨hfill, hmoved', hcalm'⟩ :=
      step_quiet hcs hmoved (Nat.le_of_lt (readRegexp_from hcs.tail hread).2) hcalm
    rw [hfill]
    simp only [readRegexp, hline, ↓reduceIte]
    exact ih hcs.tail hmoved' hread hcalm'
  case case4 hline hescaped hclose =>
    obtain ⟨rfl, rfl⟩ : _ = stop ∧ _ = rest := by simpa using hread
    obtain ⟨hfill, hmoved', -⟩ := step_quiet hcs hmoved (Nat.le_refl _) hcalm
    rw [hfill]
    refine ⟨_, ?_, hmoved'⟩
    simp only [readRegexp, hline, hescaped, hclose, ↓reduceIte]
    rfl
  case case5 hline hescaped hclose ih =>
    obtain ⟨hfill, hmoved', hcalm'⟩ :=
      step_quiet hcs hmoved (Nat.le_of_lt (readRegexp_from hcs.tail hread).2) hcalm
    rw [hfill]
    simp only [readRegexp, hline, hescaped, hclose]
    exact ih hcs.tail hmoved' hread hcalm'

end Filling

end AmdModules.Script
