import AmdModules.Proofs.Reread.Filling
import AmdModules.Proofs.Script.Escape
import Mathlib.Data.List.Find

/-!
# Words, numbers and marks of a filled text

The readers of the lexer are gone through one by one. None of them looks behind a character that
something may be put behind, so each reads the same from the filled text, and what it leaves is the
filled rest.
-/

set_option autoImplicit false

namespace AmdModules.Script

open Text

theorem isStop_of_isHexDigit (c : Char) (h : isHexDigit c = true) : isStop c = false :=
  isStop_eq_false h (by decide)

theorem isStop_of_isNamePart (c : Char) (h : isNamePart c = true) : isStop c = false :=
  isStop_eq_false h (by decide)

/-! ## Numbers of escapes -/

theorem hexNumber?_eq_none {cs : List Char} {c : Char} (hmem : c ∈ cs)
    (hc : isHexDigit c = false) : hexNumber? cs = none := by
  have hfold : ∀ n : Nat, cs.foldlM (fun n c => do
      let digit ← hexValue? c
      if digit < 16 then some (16 * n + digit) else none) n = none := by
    induction cs with
    | nil => cases hmem
    | cons d cs ih =>
      intro n
      rw [List.foldlM_cons]
      rcases List.mem_cons.mp hmem with rfl | hmem
      · have hnone : hexValue? c = none := by simpa [isHexDigit] using hc
        simp [hnone]
      · cases (hexValue? d) with
        | none => rfl
        | some digit =>
          simp only [Option.bind_eq_bind, Option.bind_some]
          split
          · simpa using ih hmem _
          · rfl
  rw [hexNumber?, number?]
  split
  · rfl
  · exact hfold 0

/-- Four digits have to follow when no brace does. -/
theorem unicodeEscape?_eq_none {cs : List Char} (hbrace : cs.head? ≠ some '\x7b') {c : Char}
    (hmem : c ∈ cs.take 4) (hc : isHexDigit c = false) : unicodeEscape? cs = none := by
  unfold unicodeEscape?
  split
  · exact absurd rfl hbrace
  · rename_i a b c d rest _
    have hnone : hexNumber? [a, b, c, d] = none := hexNumber?_eq_none hmem hc
    rw [hnone]
    rfl
  · rfl

/-- Four digits decide, whatever follows them. -/
theorem unicodeEscape?_four {a b c d : Char} (hbrace : a ≠ '\x7b') (cs cs' : List Char) :
    unicodeEscape? (a :: b :: c :: d :: cs) = unicodeEscape? (a :: b :: c :: d :: cs') := by
  have hfour (cs : List Char) : unicodeEscape? (a :: b :: c :: d :: cs)
      = (hexNumber? [a, b, c, d]).bind fun n =>
        if isSurrogate n then some (['\\', 'u', a, b, c, d], 4) else some ([Char.ofNat n], 4) := by
    unfold unicodeEscape?
    split
    · rename_i heq
      exact absurd (List.cons.inj heq).1 hbrace
    · rename_i heq
      cases heq
      rfl
    · rename_i hno
      exact (hno a b c d cs rfl).elim
  rw [hfour, hfour]

/-- A text as the characters of a class it starts with, and the rest. -/
theorem exists_class (p : Char → Bool) (cs : List Char) :
    ∃ ds rest, cs = ds ++ rest ∧ (∀ d ∈ ds, p d = true) ∧ (∀ c ∈ rest.head?, p c = false)
      ∧ cs.takeWhile p = ds ∧ cs.dropWhile p = rest := by
  refine ⟨cs.takeWhile p, cs.dropWhile p, List.takeWhile_append_dropWhile.symm,
    fun d hd => List.all_eq_true.mp List.all_takeWhile d hd, fun c hc => ?_, rfl, rfl⟩
  have := List.head?_dropWhile_not p cs
  rw [Option.mem_def.mp hc] at this
  simpa using this

/-- What spells a number is made of digits and braces. -/
theorem not_isStop_of_unicodeEscape? {cs spelled : List Char} {n : Nat}
    (h : unicodeEscape? cs = some (spelled, n)) : ∀ c ∈ cs.take n, isStop c = false := by
  unfold unicodeEscape? at h
  split at h
  · rename_i cs
    obtain ⟨ds, rest, rfl, hds, -, hdigits, -⟩ := exists_class isHexDigit cs
    simp only [hdigits, List.drop_left] at h
    obtain ⟨hclosed, h⟩ := Option.ite_none_left_eq_some.mp h
    obtain ⟨m, -, h⟩ := Option.bind_eq_some_iff.mp h
    obtain ⟨-, h⟩ := Option.ite_none_left_eq_some.mp h
    obtain rfl : ds.length + 2 = n := by split at h <;> cases h <;> rfl
    simp only [Bool.or_eq_true, Bool.not_eq_true', not_or, Bool.not_eq_false] at hclosed
    obtain ⟨rest, rfl⟩ := startsWith_iff.mp hclosed.2
    have htake : ('\x7b' :: (ds ++ (['\x7d'] ++ rest))).take (ds.length + 2)
        = '\x7b' :: (ds ++ ['\x7d']) := by
      rw [← List.append_assoc, ← List.cons_append]
      exact List.take_left' (by simp)
    rw [htake]
    intro c hc
    simp only [List.mem_cons, List.mem_append, List.not_mem_nil, or_false] at hc
    obtain rfl | hc | rfl := hc
    · decide
    · exact isStop_of_isHexDigit c (hds c hc)
    · decide
  · rename_i a b c d rest _
    obtain ⟨m, hnumber, h⟩ := Option.bind_eq_some_iff.mp h
    obtain rfl : 4 = n := by split at h <;> cases h <;> rfl
    intro x hx
    refine isStop_of_isHexDigit x (Bool.not_eq_false _ |>.mp fun hnot => ?_)
    have hnone : hexNumber? [a, b, c, d] = none := hexNumber?_eq_none hx hnot
    rw [hnone] at hnumber
    cases hnumber
  · cases h

namespace Filling

variable {text : List Char} {f : Filling text} {cs : List Char}

theorem unicodeEscape?_fill (h : cs <:+ text) :
    unicodeEscape? (f.fill cs) = unicodeEscape? cs := by
  by_cases hbrace : cs.head? = some '\x7b'
  · obtain ⟨cs, rfl⟩ := List.head?_eq_some_iff.mp hbrace
    have hcs := suffix_tail h
    obtain ⟨ds, rest, rfl, hds, -, hdigits, -⟩ := exists_class isHexDigit cs
    have hfill := fill_append (f := f) ds hcs fun d hd => isStop_of_isHexDigit d (hds d hd)
    have hrest := (List.suffix_append ds rest).trans hcs
    have hdigits' : (ds ++ f.fill rest).takeWhile isHexDigit = ds := by
      rw [← hfill, takeWhile_fill hcs isStop_of_isHexDigit, hdigits]
    rw [fill_cons h rfl, hfill]
    simp only [unicodeEscape?, hdigits, hdigits', List.drop_left,
      startsWith_fill hrest (by rfl : ['\x7d'].dropLast.any isStop = false)]
  · obtain ⟨ds, rest, rfl, hds, hend, -, -⟩ := exists_class isHexDigit cs
    have hfill := fill_append (f := f) ds h fun d hd => isStop_of_isHexDigit d (hds d hd)
    rw [hfill]
    rcases rest with _ | ⟨c, rest⟩
    · rfl
    have hc := hend c rfl
    rcases ds with _ | ⟨a, _ | ⟨b, _ | ⟨d, _ | ⟨e, ds⟩⟩⟩⟩
    case cons.cons.cons.cons => exact unicodeEscape?_four (by simpa using hbrace) _ _
    all_goals
      rw [unicodeEscape?_eq_none hbrace (c := c) (by simp) hc]
      rw [unicodeEscape?_eq_none (by simpa [fill] using hbrace) (c := c) (by simp [fill]) hc]

/-! ## Names -/

theorem readEscapedName_fuel {name : List Char} {fuel fuel' : Nat} (h : cs.length < fuel)
    (h' : cs.length < fuel') : readEscapedName name fuel cs = readEscapedName name fuel' cs := by
  induction fuel generalizing name fuel' cs with
  | zero => exact absurd h (Nat.not_lt_zero _)
  | succ fuel ih =>
    obtain ⟨fuel', rfl⟩ := Nat.exists_eq_add_one_of_ne_zero (Nat.ne_zero_of_lt h')
    rw [readEscapedName.eq_def, readEscapedName.eq_def]
    dsimp only
    split
    · rename_i cs
      simp only [List.length_cons] at h h'
      have hdrop (n : Nat) : (cs.drop n).length ≤ cs.length := by simp
      have hsame (n : Nat) (name : List Char) :
          readEscapedName name fuel (cs.drop n) = readEscapedName name fuel' (cs.drop n) :=
        ih (by have := hdrop n; omega) (by have := hdrop n; omega)
      simp only [hsame]
    · rfl
    · simp only [List.length_cons] at h h'
      split
      · exact ih (by omega) (by omega)
      · rfl
    · rfl

theorem readEscapedName_cons {c : Char} (hc : c ≠ '\\') (name : List Char) (fuel : Nat)
    (cs : List Char) : readEscapedName name (fuel + 1) (c :: cs)
      = if isNamePart c then readEscapedName (c :: name) fuel cs
        else some (name.reverse, c :: cs) := by
  rw [readEscapedName.eq_def]
  dsimp only
  split
  · rename_i heq
    exact absurd (List.cons.inj heq).1 hc
  · rename_i heq
    exact absurd (List.cons.inj heq).1 hc
  · rename_i heq
    cases heq
    rfl
  · rename_i heq
    cases heq

theorem readEscapedName_backslash {c : Char} (hc : c ≠ 'u') (name : List Char) (fuel : Nat)
    (cs : List Char) : readEscapedName name (fuel + 1) ('\\' :: c :: cs) = none := by
  rw [readEscapedName.eq_def]
  dsimp only
  split
  · rename_i heq
    exact absurd (List.cons.inj (List.cons.inj heq).2).1 hc
  · rfl
  · rename_i hno heq
    cases heq
    exact absurd rfl hno
  · rename_i heq
    cases heq

theorem drop_fill {n : Nat} (h : cs <:+ text) (hcs : ∀ c ∈ cs.take n, isStop c = false) :
    (f.fill cs).drop n = f.fill (cs.drop n) := by
  have hsplit := List.take_append_drop n cs
  conv_lhs => rw [← hsplit, fill_append _ (by rwa [hsplit]) hcs]
  rcases Nat.le_total n cs.length with hle | hle
  · exact List.drop_left' (by simp [hle])
  · simp [List.drop_eq_nil_of_le hle, fill]

theorem readEscapedName_fill {name : List Char} {fuel : Nat} (h : cs <:+ text) :
    readEscapedName name fuel (f.fill cs)
      = (readEscapedName name fuel cs).map fun r => (r.1, f.fill r.2) := by
  induction fuel generalizing name cs with
  | zero => rfl
  | succ fuel ih =>
    rcases cs with _ | ⟨c, cs⟩
    · rfl
    have hcs := suffix_tail h
    by_cases hback : c = '\\'
    · subst hback
      rw [fill_cons h rfl]
      rcases cs with _ | ⟨d, cs⟩
      · rfl
      by_cases hu : d = 'u'
      · subst hu
        have hcs' := suffix_tail hcs
        rw [fill_cons hcs rfl]
        simp only [readEscapedName, unicodeEscape?_fill hcs']
        cases hescape : unicodeEscape? cs with
        | none => rfl
        | some r =>
          obtain ⟨spelled, n⟩ := r
          have hdrop := drop_fill (f := f) hcs' (not_isStop_of_unicodeEscape? hescape)
          have hsuffix := (List.drop_suffix n cs).trans hcs'
          simp only [Option.bind_eq_bind, Option.bind_some, hdrop, ih hsuffix]
          split
          · split <;> split <;> rfl
          · rfl
      · rw [fill_eq_cons, readEscapedName_backslash hu, readEscapedName_backslash hu]
        rfl
    · rw [fill_eq_cons, readEscapedName_cons hback, readEscapedName_cons hback]
      split
      · rename_i hpart
        rw [full_eq_fill (gap_plain h (isStop_of_isNamePart c hpart)), ih hcs]
      · rfl

theorem readName_fill (h : cs <:+ text) :
    readName (f.fill cs) = (readName cs).map fun r => (r.1, f.fill r.2.1, r.2.2) := by
  obtain ⟨plain, rest, hspan⟩ : ∃ plain rest, cs.span isNamePart = (plain, rest) := ⟨_, _, rfl⟩
  have hrest : rest <:+ text := by
    have := (span_suffix isNamePart cs).trans h
    rwa [hspan] at this
  simp only [readName, span_fill h isStop_of_isNamePart, hspan]
  rcases rest with _ | ⟨c, rest⟩
  · rfl
  by_cases hback : c = '\\'
  · subst hback
    have hlength := length_le_fill (f := f) ('\\' :: rest)
    have hread : readEscapedName plain.reverse ((f.fill ('\\' :: rest)).length + 1)
        (f.fill ('\\' :: rest))
        = (readEscapedName plain.reverse (('\\' :: rest).length + 1) ('\\' :: rest)).map
          fun r => (r.1, f.fill r.2) := by
      rw [readEscapedName_fill hrest, readEscapedName_fuel (by omega) (Nat.lt_succ_self _)]
    rw [fill_eq_cons] at hread ⊢
    rw [hread]
    cases readEscapedName plain.reverse (('\\' :: rest).length + 1) ('\\' :: rest) <;> rfl
  · rw [fill_eq_cons]
    split
    · rename_i heq
      exact absurd (List.cons.inj heq).1 hback
    · split
      · rename_i heq
        exact absurd (List.cons.inj heq).1 hback
      · rfl

/-! ## Numbers -/

theorem readDigits_fill {isOne : Char → Bool} (h : cs <:+ text)
    (hisOne : (isOne '(' || isOne ',' || isOne '\x22' || isOne '\x27') = false) :
    readDigits isOne (f.fill cs) = ((readDigits isOne cs).1, f.fill (readDigits isOne cs).2) :=
  span_fill h fun _ hc =>
    isStop_eq_false (p := fun c => isOne c || c == '_') hc (by simpa using hisOne)

theorem endNumber_fill : endNumber (f.fill cs) = (endNumber cs).map f.fill := by
  rcases cs with _ | ⟨c, cs⟩
  · rfl
  · simp only [fill_eq_cons, endNumber]
    split <;> rfl

theorem readExponent_fill (h : cs <:+ text) :
    readExponent (f.fill cs) = (readExponent cs).map f.fill := by
  rcases cs with _ | ⟨c, cs⟩
  · rfl
  have hcs := suffix_tail h
  have hdigits {ds : List Char} (hds : ds <:+ text) :
      (if (readDigits isDigit (f.fill ds)).1.isEmpty then none
        else some (readDigits isDigit (f.fill ds)).2)
        = (if (readDigits isDigit ds).1.isEmpty then none
          else some (readDigits isDigit ds).2).map f.fill := by
    rw [readDigits_fill hds (by decide)]
    split <;> rfl
  simp only [fill_eq_cons, readExponent]
  by_cases hc : (c == 'e' || c == 'E') = true
  · have hplain : isStop c = false := isStop_eq_false (p := fun c => c == 'e' || c == 'E') hc rfl
    rw [if_pos hc, if_pos hc, full_eq_fill (gap_plain h hplain)]
    rcases cs with _ | ⟨d, cs⟩
    · rfl
    by_cases hsign : d = '+' ∨ d = '-'
    · rcases hsign with rfl | rfl
      · rw [fill_cons hcs rfl]
        exact hdigits (suffix_tail hcs)
      · rw [fill_cons hcs rfl]
        exact hdigits (suffix_tail hcs)
    · have := hdigits hcs
      rw [fill_eq_cons] at this ⊢
      split
      · rename_i heq
        exact absurd (.inl (List.cons.inj heq).1) hsign
      · rename_i heq
        exact absurd (.inr (List.cons.inj heq).1) hsign
      · refine this.trans (congrArg _ (Eq.symm ?_))
        split
        · rename_i heq
          exact absurd (.inl (List.cons.inj heq).1) hsign
        · rename_i heq
          exact absurd (.inr (List.cons.inj heq).1) hsign
        · rfl
  · rw [if_neg hc, if_neg hc]
    rfl

/-- A filled text starts with the characters the text starts with. -/
theorem exists_of_fill_eq {a b : Char} {ds : List Char} (h : cs <:+ text) (ha : isStop a = false)
    (heq : f.fill cs = a :: b :: ds) : ∃ rest, cs = a :: b :: rest ∧ ds = f.full rest := by
  rcases cs with _ | ⟨c, cs⟩
  · cases heq
  obtain ⟨rfl, hfull⟩ := List.cons.inj (heq.symm.trans (fill_eq_cons c cs))
  rw [full_eq_fill (gap_plain h ha)] at hfull
  rcases cs with _ | ⟨d, cs⟩
  · cases hfull
  obtain ⟨rfl, rfl⟩ := List.cons.inj (hfull.trans (fill_eq_cons d cs))
  exact ⟨cs, rfl, rfl⟩

/-- The digits of a number behind its prefix. -/
def readRadix (isOne : Char → Bool) (cs : List Char) : Option (List Char) :=
  if (readDigits isOne cs).1.isEmpty then none
  else
    endNumber (if startsWith ['n'] (readDigits isOne cs).2 then (readDigits isOne cs).2.drop 1
      else (readDigits isOne cs).2)

theorem readRadix_full {isOne : Char → Bool} {b : Char} (h : b :: cs <:+ text)
    (hb : isStop b = false)
    (hisOne : (isOne '(' || isOne ',' || isOne '\x22' || isOne '\x27') = false) :
    readRadix isOne (f.full cs) = (readRadix isOne cs).map f.fill := by
  have hcs := suffix_tail h
  have hrest : (readDigits isOne cs).2 <:+ text := (readDigits_suffix isOne cs).trans hcs
  have hlook : ['n'].dropLast.any isStop = false := rfl
  rw [full_eq_fill (gap_plain h hb)]
  simp only [readRadix, readDigits_fill hcs hisOne, startsWith_fill hrest hlook]
  split
  · rfl
  · split
    · rename_i hn
      obtain ⟨rest, hn⟩ := startsWith_iff.mp hn
      rw [List.singleton_append] at hn
      rw [hn] at hrest ⊢
      rw [fill_cons hrest rfl]
      exact endNumber_fill
    · exact endNumber_fill

/-- A number without a prefix. -/
def readDecimal (cs : List Char) : Option (List Char) :=
  let (whole, rest) := readDigits isDigit cs
  if startsWith ['0'] whole && 1 < whole.length && whole.all isOctalDigit then endNumber rest
  else
    match rest with
    | '.' :: rest => do
      let (_, rest) := readDigits isDigit rest
      endNumber (← readExponent rest)
    | 'n' :: rest => endNumber rest
    | rest => do endNumber (← readExponent rest)

theorem readNumber_eq_readDecimal (h : ∀ b ∈ "xXoObB".toList, ∀ rest, cs ≠ '0' :: b :: rest) :
    readNumber cs = readDecimal cs := by
  unfold readNumber
  dsimp only
  split
  case h_7 => rfl
  all_goals exact absurd rfl (h _ (by decide) _)

theorem endNumber_readExponent_fill (h : cs <:+ text) :
    (readExponent (f.fill cs)).bind endNumber = ((readExponent cs).bind endNumber).map f.fill := by
  rw [readExponent_fill h]
  cases readExponent cs with
  | none => rfl
  | some rest => exact endNumber_fill

theorem readDecimal_fill (h : cs <:+ text) :
    readDecimal (f.fill cs) = (readDecimal cs).map f.fill := by
  have hrest : (readDigits isDigit cs).2 <:+ text := (readDigits_suffix _ _).trans h
  unfold readDecimal
  rw [readDigits_fill h (by decide)]
  dsimp only
  generalize (readDigits isDigit cs).2 = rest at hrest
  split
  · exact endNumber_fill
  · rcases rest with _ | ⟨c, rest⟩
    · rfl
    have hbehind := suffix_tail hrest
    by_cases hdot : c = '.'
    · subst hdot
      rw [fill_cons hrest rfl]
      have hdigits : readDigits isDigit (f.fill rest) = _ := readDigits_fill hbehind (by decide)
      simp only [hdigits]
      exact endNumber_readExponent_fill ((readDigits_suffix _ _).trans hbehind)
    · by_cases hn : c = 'n'
      · subst hn
        rw [fill_cons hrest rfl]
        exact endNumber_fill
      · have hplain := endNumber_readExponent_fill (f := f) hrest
        rw [fill_eq_cons] at hplain ⊢
        split
        · rename_i heq
          exact absurd (List.cons.inj heq).1 hdot
        · rename_i heq
          exact absurd (List.cons.inj heq).1 hn
        · refine hplain.trans (congrArg _ (Eq.symm ?_))
          split
          · rename_i heq
            exact absurd (List.cons.inj heq).1 hdot
          · rename_i heq
            exact absurd (List.cons.inj heq).1 hn
          · rfl

theorem readNumber_fill (h : cs <:+ text) :
    readNumber (f.fill cs) = (readNumber cs).map f.fill := by
  by_cases hfront : ∃ b ∈ "xXoObB".toList, ∃ rest, cs = '0' :: b :: rest
  · obtain ⟨b, hb, rest, rfl⟩ := hfront
    have hletters : "xXoObB".toList.any isStop = false := by decide
    have hbehind := suffix_tail h
    have hstop : isStop b = false := by simpa using List.any_eq_false.mp hletters b hb
    rw [fill_cons h rfl, fill_eq_cons]
    simp only [show "xXoObB".toList = ['x', 'X', 'o', 'O', 'b', 'B'] from rfl, List.mem_cons,
      List.not_mem_nil, or_false] at hb
    obtain rfl | rfl | rfl | rfl | rfl | rfl := hb
    all_goals exact readRadix_full hbehind hstop (by decide)
  · simp only [not_exists, not_and] at hfront
    rw [readNumber_eq_readDecimal hfront, readNumber_eq_readDecimal, readDecimal_fill h]
    intro b hb ds heq
    obtain ⟨rest, rfl, -⟩ := exists_of_fill_eq h (by decide) heq
    exact hfront b hb rest rfl

/-! ## Marks -/

theorem not_isStop_of_mem_marks : ∀ m ∈ marks, m.2 ≠ [] ∧ m.2.dropLast.any isStop = false := by
  decide

/-- Behind the spelling of a mark stands what was put in there. -/
theorem drop_fill_mark {m : String × List Char} (hm : m ∈ marks) (h : cs <:+ text)
    (hstarts : startsWith m.2 cs = true) :
    (f.fill cs).drop m.2.length = f.full (cs.drop m.2.length) := by
  obtain ⟨rest, rfl⟩ := startsWith_iff.mp hstarts
  obtain ⟨hne, hplain⟩ := not_isStop_of_mem_marks m hm
  rw [List.drop_left]
  generalize m.2 = spelling at *
  obtain rfl | ⟨before, last, rfl⟩ := List.eq_nil_or_concat spelling
  · exact absurd rfl hne
  · rw [List.concat_eq_append, List.dropLast_concat] at *
    rw [List.append_assoc] at h ⊢
    rw [fill_append before h fun c hc => by simpa using List.any_eq_false.mp hplain c hc,
      List.singleton_append, fill_eq_cons,
      show before ++ last :: f.full rest = before ++ [last] ++ f.full rest by simp]
    exact List.drop_left

/-- Whether a mark fits is not decided by what was put in. -/
theorem fitsMark_fill {m : String × List Char} (hm : m ∈ marks) (h : cs <:+ text) :
    (startsWith m.2 (f.fill cs)
        && !(m.1 == "?." && (((f.fill cs).drop 2).head?.map isDigit).getD false))
      = (startsWith m.2 cs && !(m.1 == "?." && ((cs.drop 2).head?.map isDigit).getD false)) := by
  rw [startsWith_fill h (not_isStop_of_mem_marks m hm).2]
  by_cases hquestion : m.1 = "?." ∧ startsWith m.2 cs = true
  · -- behind a question mark and a dot the next character is the one it was
    obtain ⟨hm', hstarts⟩ := hquestion
    have hdrop := drop_fill_mark (f := f) hm h hstarts
    have hspelling : m.2 = ['?', '.'] := by rw [(marks_spelling m hm).1, hm']; rfl
    rw [hspelling] at hdrop hstarts
    obtain ⟨rest, rfl⟩ := startsWith_iff.mp hstarts
    have hgap : f.gap rest = [] := gap_plain (suffix_tail h) (c := '.') rfl
    rw [show ['?', '.'].length = 2 from rfl] at hdrop
    rw [hdrop, show (['?', '.'] ++ rest).drop 2 = rest from rfl, full_eq_fill hgap, head?_fill]
  · grind

theorem readMark?_fill (h : cs <:+ text) :
    readMark? (f.fill cs) = (readMark? cs).map fun r => (r.1, f.full r.2) := by
  have hfind := List.find?_congr fun m hm => fitsMark_fill (f := f) (m := m) hm h
  unfold readMark?
  dsimp only
  rw [hfind]
  cases hmark : marks.find? fun m => startsWith m.2 cs
      && !(m.1 == "?." && ((cs.drop 2).head?.map isDigit).getD false) with
  | none => rfl
  | some m =>
    have hstarts := List.find?_some hmark
    simp only [Bool.and_eq_true] at hstarts
    simp only [Option.map_some, drop_fill_mark (List.mem_of_find?_eq_some hmark) h hstarts.1]

/-! ## String literals -/

theorem octalEscape_fill (first : Char) (h : cs <:+ text) :
    octalEscape first (f.fill cs) = octalEscape first cs := by
  rcases cs with _ | ⟨second, cs⟩
  · rfl
  by_cases hsecond : isOctalDigit second = true
  · rw [fill_cons h (isStop_eq_false hsecond (by decide))]
    rcases cs with _ | ⟨third, cs⟩
    · rfl
    · rfl
  · simp [octalEscape, fill_eq_cons, hsecond]

/-- Two digits have to follow the letter. -/
theorem escape?_hex (h : cs <:+ text) : escape? ('x' :: f.fill cs) = escape? ('x' :: cs) := by
  rcases cs with _ | ⟨a, cs⟩
  · rfl
  by_cases ha : isHexDigit a = true
  · rw [fill_cons h (isStop_of_isHexDigit a ha)]
    rcases cs with _ | ⟨b, cs⟩
    · rfl
    · rfl
  · have hnone (b : Char) : hexNumber? [a, b] = none :=
      hexNumber?_eq_none (c := a) (by simp) (by simpa using ha)
    have hstep (ds : List Char) : escape? ('x' :: a :: ds) = none := by
      rcases ds with _ | ⟨b, ds⟩
      · rfl
      · exact congrArg (Option.map _) (hnone b)
    rw [fill_eq_cons, hstep, hstep]

theorem escape?_fill (h : cs <:+ text) : escape? (f.fill cs) = escape? cs := by
  rcases cs with _ | ⟨c, cs⟩
  · rfl
  have hcs := suffix_tail h
  cases hc : isStop c with
  | true =>
    rw [fill_eq_cons]
    obtain rfl | rfl | rfl | rfl := isStop_iff.mp hc
    all_goals rfl
  | false =>
    have hlook : ['\n'].dropLast.any isStop = false := rfl
    rw [fill_cons h hc]
    by_cases hx : c = 'x'
    · subst hx
      exact escape?_hex hcs
    · simp only [escape?, startsWith_fill hcs hlook, octalEscape_fill c hcs,
        unicodeEscape?_fill hcs]
      split
      · rfl
      split
      · rfl
      split
      · rfl
      split
      case h_7 => exact absurd rfl hx
      all_goals rfl

end Filling

/-- The same literal in front of another rest. -/
def Quoted.mapRest (g : List Char → List Char) : Quoted → Quoted
  | .ended value offset rest => .ended value offset (g rest)
  | .badEscape offset rest => .badEscape offset (g rest)

namespace Filling

variable {text : List Char} {f : Filling text} {cs : List Char}

theorem le_readQuoted_behind (quote : Char) (value : List Char) (owed offset : Nat)
    (cs : List Char) : offset ≤ (readQuoted quote value owed offset cs).behind.1 := by
  obtain ⟨passed, -, hbehind⟩ := readQuoted_split quote value owed offset cs
  omega

/-- A literal in which nothing is put in is the literal it was. -/
theorem readQuoted_fill {quote : Char} {value : List Char} {owed offset o : Nat}
    (h : From text o cs)
    (hcalm : ∀ x, o < x →
      x + offset ≤ o + (readQuoted quote value owed offset cs).behind.1 → f.put x = []) :
    readQuoted quote value owed offset (f.fill cs)
      = (readQuoted quote value owed offset cs).mapRest f.fill := by
  have hstep {c : Char} {cs : List Char} {offset o behind : Nat} (h : From text o (c :: cs))
      (hle : offset + c.utf8Size ≤ behind)
      (hcalm : ∀ x, o < x → x + offset ≤ o + behind → f.put x = []) :
      f.fill (c :: cs) = c :: f.fill cs
        ∧ ∀ x, o + c.utf8Size < x → x + (offset + c.utf8Size) ≤ o + c.utf8Size + behind →
          f.put x = [] := by
    have hpos := c.utf8Size_pos
    refine ⟨fill_cons_of_put h (hcalm _ (by omega) (by omega)), fun x hlo hhi => ?_⟩
    exact hcalm x (by omega) (by omega)
  fun_induction readQuoted quote value owed offset cs generalizing o
  case case1 => rfl
  case case2 ih =>
    obtain ⟨hfill, hcalm'⟩ := hstep h (le_readQuoted_behind ..) hcalm
    rw [hfill]
    exact ih h.tail hcalm'
  case case3 hquote =>
    obtain ⟨hfill, -⟩ := hstep h (Nat.le_refl _) hcalm
    rw [hfill]
    simp [readQuoted, hquote, Quoted.mapRest]
    rfl
  case case4 hquote hback spelled length hescape ih =>
    obtain ⟨hfill, hcalm'⟩ := hstep h (le_readQuoted_behind ..) hcalm
    rw [hfill, ← ih h.tail hcalm']
    simp [readQuoted, hquote, hback, escape?_fill (suffix_of_from h.tail), hescape]
    rfl
  case case5 hquote hback hescape =>
    obtain ⟨hfill, -⟩ := hstep h (Nat.le_refl _) hcalm
    rw [hfill]
    simp [readQuoted, hquote, hback, escape?_fill (suffix_of_from h.tail), hescape, Quoted.mapRest]
    rfl
  case case6 hquote hback hline =>
    rw [fill_eq_cons]
    simp [readQuoted, hquote, hback, hline, Quoted.mapRest, fill_eq_cons]
  case case7 hquote hback hline ih =>
    obtain ⟨hfill, hcalm'⟩ := hstep h (le_readQuoted_behind ..) hcalm
    rw [hfill, ← ih h.tail hcalm']
    simp [readQuoted, hquote, hback, hline]
    rfl

end Filling

end AmdModules.Script
