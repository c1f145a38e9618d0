import AmdModules.Proofs.Script.Token

/-!
# Writing string literals

`escape` writes a text for use between two quotes, and `readQuoted` reads what stands between them.
The two keep in step: behind the spelling of a character the reader has read that character and is
owed nothing (`readQuoted_escapeChar`). So it comes to the closing quote with all of the text read
(`readQuoted_escape`), whatever stands behind that quote, and a text can be told from the way it is
written (`escape_readBack`).
-/

set_option autoImplicit false

namespace AmdModules.Script

open Text

theorem readQuoted_cons (quote c : Char) (value cs : List Char) (offset : Nat) :
    readQuoted quote value 0 offset (c :: cs)
      = if c == quote then .ended value.reverse (offset + c.utf8Size) cs
        else if c == '\\' then
          match escape? cs with
          | some (spelled, length) =>
            readQuoted quote (spelled.reverse ++ value) length (offset + c.utf8Size) cs
          | none => .badEscape (offset + c.utf8Size) cs
        else if c == '\n' || c == '\r' then .ended value.reverse offset (c :: cs)
        else readQuoted quote (c :: value) 0 (offset + c.utf8Size) cs :=
  rfl

/-! ## One character -/

section

variable {quote : Char}

/-- A backslash and a letter that together stand for one character. -/
theorem readQuoted_backslash {c d : Char} (hquote : quote ≠ '\\')
    (hescape : ∀ rest, escape? (d :: rest) = some ([c], 1)) (value rest : List Char)
    (offset : Nat) :
    readQuoted quote value 0 offset ('\\' :: d :: rest)
      = readQuoted quote (c :: value) 0 (offset + byteLength ['\\', d]) rest := by
  rw [readQuoted_cons, if_neg (by simpa using Ne.symm hquote), if_pos (by decide), hescape]
  simp [readQuoted, Nat.add_assoc]

/-- A character that can stand for itself is written as it is. -/
theorem escapeChar_of_not_needsEscape {c : Char} (h : needsEscape quote c = false) :
    escapeChar quote c = [c] := by
  simp only [needsEscape, Bool.or_eq_false_iff, beq_eq_false_iff_ne] at h
  obtain ⟨⟨⟨hback, hquote⟩, hfeed⟩, hreturn⟩ := h
  simp [escapeChar, hback, hquote, hfeed, hreturn]

/-- No spelling holds the end of a line. -/
theorem not_lineEnd_of_mem_escapeChar {c d : Char} (hd : d ∈ escapeChar quote c)
    (hquote : quote ≠ '\n' ∧ quote ≠ '\r') : d ≠ '\n' ∧ d ≠ '\r' := by
  unfold escapeChar at hd
  split at hd
  · obtain rfl : d = '\\' := by simpa using hd
    decide
  split at hd
  · obtain rfl | rfl : d = '\\' ∨ d = 'n' := by simpa using hd
    all_goals decide
  split at hd
  · obtain rfl | rfl : d = '\\' ∨ d = 'r' := by simpa using hd
    all_goals decide
  split at hd
  · rename_i hc
    obtain rfl | rfl : d = '\\' ∨ d = c := by simpa using hd
    · decide
    · exact hc ▸ hquote
  · rename_i hfeed hreturn _
    obtain rfl : d = c := by simpa using hd
    exact ⟨hfeed, hreturn⟩

/-- **The reader keeps in step**: behind the spelling of a character it has read the character. -/
theorem readQuoted_escapeChar (hquote : quote = '\x27' ∨ quote = '\x22') (c : Char)
    (value rest : List Char) (offset : Nat) :
    readQuoted quote value 0 offset (escapeChar quote c ++ rest)
      = readQuoted quote (c :: value) 0 (offset + byteLength (escapeChar quote c)) rest := by
  have hback : quote ≠ '\\' := by rcases hquote with rfl | rfl <;> decide
  have hself : ∀ rest, escape? (quote :: rest) = some ([quote], 1) := by
    intro rest
    rcases hquote with rfl | rfl <;> rfl
  unfold escapeChar
  split
  · subst c
    exact readQuoted_backslash hback (fun _ => rfl) value rest offset
  split
  · subst c
    exact readQuoted_backslash hback (fun _ => rfl) value rest offset
  split
  · subst c
    exact readQuoted_backslash hback (fun _ => rfl) value rest offset
  split
  · subst c
    exact readQuoted_backslash hback hself value rest offset
  · rename_i hc hfeed hreturn hends
    rw [List.singleton_append, readQuoted_cons, if_neg (by simpa using hends),
      if_neg (by simpa using hc), if_neg (by simp [hfeed, hreturn])]
    rfl

end

/-! ## Whole texts -/

/-- Leaving alone a text without anything to escape is what writing its characters one by one
comes to. -/
theorem escape_eq_flatMap (quote : Char) (text : List Char) :
    escape quote text = text.flatMap (escapeChar quote) := by
  unfold escape
  split
  · rfl
  · rename_i hnone
    have hself : ∀ c ∈ text, escapeChar quote c = [c] := fun c hc =>
      escapeChar_of_not_needsEscape (Bool.eq_false_iff.mpr fun h =>
        hnone (List.any_eq_true.mpr ⟨c, hc, h⟩))
    rw [List.flatMap_def, List.map_congr_left hself, ← List.flatMap_def, List.flatMap_singleton']

theorem readQuoted_escape {quote : Char} (hquote : quote = '\x27' ∨ quote = '\x22')
    (text value rest : List Char) (offset : Nat) :
    readQuoted quote value 0 offset (escape quote text ++ quote :: rest)
      = .ended (value.reverse ++ text) (offset + byteLength (escape quote text) + 1) rest := by
  rw [escape_eq_flatMap]
  induction text generalizing value offset with
  | nil =>
    have hsize : quote.utf8Size = 1 := by rcases hquote with rfl | rfl <;> decide
    rw [List.flatMap_nil, List.nil_append, readQuoted_cons, if_pos (by simp), hsize]
    simp
  | cons c text ih =>
    rw [List.flatMap_cons, List.append_assoc, readQuoted_escapeChar hquote, ih]
    simp [Nat.add_assoc]

/-- The token that a written text and its quotes are. -/
theorem readKind_escape {quote : Char} (hquote : quote = '\x27' ∨ quote = '\x22')
    (text rest : List Char) :
    readKind (quote :: (escape quote text ++ quote :: rest))
      = (.string (String.ofList text), byteLength (quote :: (escape quote text ++ [quote])),
        rest) := by
  have hstart : (isNameStart quote || quote == '\\') = false := by
    rcases hquote with rfl | rfl <;> decide
  have hopens : (quote == '\x22' || quote == '\x27') = true := by
    rcases hquote with rfl | rfl <;> decide
  have hsize : quote.utf8Size = 1 := by rcases hquote with rfl | rfl <;> decide
  unfold readKind
  simp only [hstart, hopens, Bool.false_eq_true, ↓reduceIte]
  rw [readQuoted_escape hquote]
  simp [hsize, Nat.add_assoc]

theorem escape_injective {quote : Char} (hquote : quote = '\x27' ∨ quote = '\x22') :
    Function.Injective (escape quote) := by
  intro text other heq
  have hread := readQuoted_escape hquote text [] [] 0
  rw [heq, readQuoted_escape hquote] at hread
  simpa using (Quoted.ended.inj hread).1.symm

/-- **What is written between two quotes is read back.** The token is the string of the text and
ends right behind the closing quote, and no line ends before that. So no two texts are written
alike, and handing back a text without anything to escape is no exception to how its characters are
written. -/
theorem escape_readBack {quote : Char} (hquote : quote = '\x27' ∨ quote = '\x22')
    (text : List Char) :
    (∀ rest, readKind (quote :: (escape quote text ++ quote :: rest))
        = (.string (String.ofList text), byteLength (quote :: (escape quote text ++ [quote])),
          rest))
      ∧ (∀ (offset : Nat) (rest : List Char),
        readQuoted quote [] 0 offset (escape quote text ++ quote :: rest)
          = .ended text (offset + byteLength (escape quote text) + 1) rest)
      ∧ (∀ c ∈ escape quote text, c ≠ '\n' ∧ c ≠ '\r')
      ∧ (∀ other, escape quote other = escape quote text → other = text)
      ∧ escape quote text = text.flatMap (escapeChar quote) := by
  have hline : quote ≠ '\n' ∧ quote ≠ '\r' := by rcases hquote with rfl | rfl <;> decide
  refine ⟨readKind_escape hquote text,
    fun offset rest => readQuoted_escape hquote text [] rest offset, fun c hc => ?_,
    fun other h => escape_injective hquote h, escape_eq_flatMap quote text⟩
  rw [escape_eq_flatMap] at hc
  obtain ⟨d, -, hd⟩ := List.mem_flatMap.mp hc
  exact not_lineEnd_of_mem_escapeChar hd hline

/-- A text that ends with a backslash, with quotes and the end of a line in it. -/
theorem escape_readBack_quotes :
    escape '\x27' "it's\n\\".toList = "it\\'s\\n\\\\".toList
      ∧ readKind "'it\\'s\\n\\\\';".toList = (.string "it's\n\\", 11, [';']) := by
  have hwritten : escape '\x27' "it's\n\\".toList = "it\\'s\\n\\\\".toList := by decide
  have hread := (escape_readBack (.inl rfl) "it's\n\\".toList).1 [';']
  rw [hwritten] at hread
  exact ⟨hwritten, hread⟩

end AmdModules.Script
