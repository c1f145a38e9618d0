import AmdModules.Json.Value
import AmdModules.Json.Writer

/-!
# Reading what was written

JSON that the library writes is read back as what was written, whatever stands behind it. A reader's
place in the lines of the text only matters for faults, so `Reader.Takes` leaves it open: it says
that from one text the reader comes to another, and with which value. The rules follow the shape of
the readers; `text_takes`, `items_takes` and `objectOf_takes` are the three constructs that the
writers produce.
-/

set_option autoImplicit false

namespace AmdModules

namespace Json

/-! ## Strings -/

theorem hexNumber?_control : ∀ n < 0x20,
    Text.hexNumber? ['0', '0', Nat.digitChar (n / 16), Nat.digitChar (n % 16)] = some n := by
  decide

/-- A written character is read back as itself. -/
theorem readChars_writeChar (value : List Char) (line column : Nat) (c : Char)
    (rest : List Char) :
    ∃ column', readChars value 0 line column (writeChar c ++ rest)
      = readChars (c :: value) 0 line column' rest := by
  unfold writeChar
  -- the characters with a letter of their own
  iterate 7
    split
    · rename_i h
      subst h
      exact ⟨_, rfl⟩
  split
  · rename_i hcontrol
    have hescape : readEscape
        ⟨'u' :: '0' :: '0' :: Nat.digitChar (c.toNat / 16) :: Nat.digitChar (c.toNat % 16) :: rest,
          line, column + 1⟩ = .ok (c, 5) := by
      have hhigh : ¬ (0xDC00 ≤ c.toNat ∧ c.toNat ≤ 0xDFFF) := by omega
      have hlow : ¬ (0xD800 ≤ c.toNat ∧ c.toNat ≤ 0xDBFF) := by omega
      simp [readEscape, hexEscape, Cursor.next, hexNumber?_control c.toNat hcontrol, hhigh, hlow,
        Char.ofNat_toNat]
    simp only [List.cons_append, List.nil_append, readChars, hescape]
    exact ⟨_, rfl⟩
  · rename_i hquote hslash _ _ _ _ _ hcontrol
    exact ⟨column + c.utf8Size, by simp [readChars, hquote, hslash, hcontrol]⟩

theorem readChars_write (value text : List Char) (line column : Nat) (rest : List Char) :
    ∃ column', readChars value 0 line column (text.flatMap writeChar ++ '\x22' :: rest)
      = (.ok (value.reverse ++ text), ⟨rest, line, column'⟩) := by
  induction text generalizing value column with
  | nil => exact ⟨column + 1, by simp [readChars]⟩
  | cons c text ih =>
    rw [List.flatMap_cons, List.append_assoc]
    obtain ⟨behind, hchar⟩ := readChars_writeChar value line column c
      (text.flatMap writeChar ++ '\x22' :: rest)
    obtain ⟨column', hrest⟩ := ih (c :: value) behind
    exact ⟨column', by rw [hchar, hrest]; simp⟩

namespace Reader

variable {α β σ : Type}

/-! ## Readers that come through -/

/-- From the text `before` the reader comes to `after`, with the value `a`. -/
def Takes (p : Reader α) (before after : List Char) (a : α) : Prop :=
  ∀ line column, ∃ line' column', p ⟨before, line, column⟩ = (.ok a, ⟨after, line', column'⟩)

theorem Takes.run_eq {p : Reader α} {text : List Char} {a : α} (h : Takes p text [] a) :
    run p text = .ok a := by
  obtain ⟨line, column, hp⟩ := h 1 0
  simp [run, Bind.bind, Pure.pure, hp, peekToken, skipBlankIn]

namespace Takes

theorem pure (text : List Char) (a : α) : Takes (Pure.pure a) text text a :=
  fun line column => ⟨line, column, rfl⟩

theorem bind {p : Reader α} {f : α → Reader β} {before between after : List Char} {a : α} {b : β}
    (hp : Takes p before between a) (hf : Takes (f a) between after b) :
    Takes (p >>= f) before after b := by
  intro line column
  obtain ⟨line', column', hp⟩ := hp line column
  obtain ⟨line'', column'', hf⟩ := hf line' column'
  exact ⟨line'', column'', by simp [Bind.bind, hp, hf]⟩

theorem located {p : Reader α} {before after : List Char} {a : α} (h : Takes p before after a) :
    Takes (Reader.located p) before after a := by
  intro line column
  obtain ⟨line', column', hp⟩ := h line column
  exact ⟨line', column', by simp [Reader.located, hp]⟩

theorem closedBy {finish : Reader Unit} {body : Reader α} {before between after : List Char}
    {a : α} (hbody : Takes body before between a) (hfinish : Takes finish between after ()) :
    Takes (Reader.closedBy finish body) before after a := by
  intro line column
  obtain ⟨line', column', hbody⟩ := hbody line column
  obtain ⟨line'', column'', hfinish⟩ := hfinish line' column'
  exact ⟨line'', column'', by simp [Reader.closedBy, hbody, hfinish]⟩

/-- The number of characters left only bounds a repetition. -/
theorem remaining {f : Nat → Reader β} {before after : List Char} {b : β}
    (hf : Takes (f before.length) before after b) : Takes (Reader.remaining >>= f) before after b :=
  bind (fun line column => ⟨line, column, rfl⟩) hf

end Takes

/-- Blank space between tokens. -/
def isBlank (c : Char) : Bool :=
  c = '\n' || c = ' ' || c = '\t' || c = '\r'

theorem peekToken_takes {c : Char} (hc : isBlank c = false) (rest : List Char) :
    Takes peekToken (c :: rest) (c :: rest) (some c) := by
  simp only [isBlank, Bool.or_eq_false_iff, decide_eq_false_iff_not] at hc
  exact fun line column => ⟨line, column, by simp [peekToken, skipBlankIn, hc]⟩

theorem peekValue_takes {c : Char} (hc : isBlank c = false) (rest : List Char) :
    Takes peekValue (c :: rest) (c :: rest) c :=
  .bind (peekToken_takes hc rest) (.pure _ _)

theorem advance_takes (c : Char) (rest : List Char) : Takes advance (c :: rest) rest () := by
  intro line column
  by_cases hc : c = '\n'
  · exact ⟨line + 1, 0, by simp [advance, Cursor.next, hc]⟩
  · exact ⟨line, column + c.utf8Size, by simp [advance, Cursor.next, hc]⟩

theorem letters_takes (expected rest : List Char) :
    Takes (letters expected) (expected ++ rest) rest () := by
  induction expected with
  | nil => exact .pure _ _
  | cons c expected ih =>
    have hpeek : Takes peek (c :: expected ++ rest) (c :: expected ++ rest) (some c) :=
      fun line column => ⟨line, column, rfl⟩
    refine .bind hpeek ?_
    simp only [↓reduceIte]
    exact .bind (advance_takes c _) ih

theorem text_takes (written : String) (rest : List Char) :
    Takes text (writeText written ++ rest) rest written := by
  refine .bind (advance_takes '\x22' _) fun line column => ?_
  obtain ⟨column', hread⟩ := readChars_write [] written.toList line column rest
  refine ⟨line, column', ?_⟩
  simp [hread, Except.map, String.ofList_toList]

/-! ## Lists -/

theorem joinWith_cons (separator piece : List Char) (pieces : List (List Char)) :
    Text.joinWith separator (piece :: pieces)
      = piece ++ pieces.flatMap (separator ++ ·) := by
  induction pieces generalizing piece with
  | nil => simp [Text.joinWith]
  | cons next pieces ih =>
    rw [Text.joinWith, ih]
    · simp
    · simp

/-- Pieces with commas between them are at most one more than characters. -/
theorem length_le_joinWith (pieces : List (List Char)) :
    pieces.length ≤ (Text.joinWith [','] pieces).length + 1 := by
  match pieces with
  | [] => exact Nat.zero_le _
  | piece :: pieces =>
    have hrest : pieces.length ≤ (pieces.flatMap ([','] ++ ·)).length := by
      induction pieces with
      | nil => exact Nat.zero_le _
      | cons piece pieces ih =>
        simp only [List.flatMap_cons, List.length_append, List.length_cons] at ih ⊢
        omega
    rw [joinWith_cons, List.length_append, List.length_cons]
    omega

section Items

variable {item : Reader β} {write : α → List Char} {read : α → β}

/-- Items behind others are read up to the closing bracket. Each of them starts with a character
that is neither blank nor that bracket. -/
theorem itemsBehind_takes (hitem : ∀ a rest, Takes item (write a ++ rest) rest (read a))
    (hfirst : ∀ a, ∃ c others, write a = c :: others ∧ isBlank c = false ∧ c ≠ ']')
    (as : List α) (fuel : Nat) (hfuel : as.length < fuel) (rest : List Char) :
    Takes (items item fuel false)
      ((as.map write).flatMap ([','] ++ ·) ++ ']' :: rest) (']' :: rest) (as.map read) := by
  induction as generalizing fuel with
  | nil =>
    match fuel, hfuel with
    | fuel + 1, _ => exact .bind (peekToken_takes (by decide) rest) (.pure _ _)
  | cons a as ih =>
    match fuel, hfuel with
    | fuel + 1, hfuel =>
      have hitems : Takes
          (item >>= fun a => items item fuel false >>= fun as => Pure.pure (a :: as))
          (write a ++ ((as.map write).flatMap ([','] ++ ·) ++ ']' :: rest)) (']' :: rest)
          (read a :: as.map read) :=
        .bind (hitem a _) (.bind (ih fuel (Nat.lt_of_succ_lt_succ hfuel)) (.pure _ _))
      have htext : ((a :: as).map write).flatMap ([','] ++ ·) ++ ']' :: rest
          = ',' :: (write a ++ ((as.map write).flatMap ([','] ++ ·) ++ ']' :: rest)) := by
        simp
      rw [htext]
      refine .bind (peekToken_takes (by decide) _) (.bind (advance_takes ',' _) ?_)
      obtain ⟨c, others, hwrite, hblank, hbracket⟩ := hfirst a
      rw [hwrite, List.cons_append] at hitems ⊢
      refine .bind (peekToken_takes hblank _) ?_
      split
      · rename_i heq
        exact absurd (Option.some.inj heq) hbracket
      · exact hitems
      · rename_i heq
        cases heq

theorem items_takes (hitem : ∀ a rest, Takes item (write a ++ rest) rest (read a))
    (hfirst : ∀ a, ∃ c others, write a = c :: others ∧ isBlank c = false ∧ c ≠ ']')
    (as : List α) (fuel : Nat) (hfuel : as.length < fuel) (rest : List Char) :
    Takes (items item fuel true)
      (Text.joinWith [','] (as.map write) ++ ']' :: rest) (']' :: rest) (as.map read) := by
  match as, fuel, hfuel with
  | [], fuel + 1, _ => exact .bind (peekToken_takes (by decide) rest) (.pure _ _)
  | a :: as, fuel + 1, hfuel =>
    have hitems : Takes (item >>= fun a => items item fuel false >>= fun as => Pure.pure (a :: as))
        (write a ++ ((as.map write).flatMap ([','] ++ ·) ++ ']' :: rest)) (']' :: rest)
        (read a :: as.map read) :=
      .bind (hitem a _) (.bind (itemsBehind_takes hitem hfirst as fuel
        (Nat.lt_of_succ_lt_succ hfuel) rest) (.pure _ _))
    rw [List.map_cons, joinWith_cons, List.append_assoc]
    obtain ⟨c, others, hwrite, hblank, hbracket⟩ := hfirst a
    rw [hwrite, List.cons_append] at hitems ⊢
    refine .bind (peekToken_takes hblank _) ?_
    split
    · rename_i heq
      cases heq
    · rename_i heq
      exact absurd (Option.some.inj heq) hbracket
    · exact hitems

theorem endOfList_takes (rest : List Char) : Takes endOfList (']' :: rest) rest () :=
  .bind (peekToken_takes (by decide) rest) (advance_takes ']' rest)

/-- **A written list is read back.** -/
theorem listOf_takes {depth : Nat} (hdepth : 1 < depth)
    (hitem : ∀ a rest, Takes item (write a ++ rest) rest (read a))
    (hfirst : ∀ a, ∃ c others, write a = c :: others ∧ isBlank c = false ∧ c ≠ ']')
    (as : List α) (rest : List Char) :
    Takes (listOf depth fun fuel => items item (fuel + 1) true)
      (writeList (as.map write) ++ rest) rest (as.map read) := by
  have hlength := length_le_joinWith (as.map write)
  have htext : writeList (as.map write) ++ rest
      = '[' :: (Text.joinWith [','] (as.map write) ++ ']' :: rest) := by
    simp [writeList]
  rw [htext, listOf, if_neg (by omega)]
  refine .bind (advance_takes '[' _) (.remaining (.closedBy ?_ (endOfList_takes rest)))
  refine items_takes hitem hfirst as _ ?_ rest
  rw [List.length_map] at hlength
  rw [List.length_append, List.length_cons]
  omega

end Items

/-! ## Objects -/

/-- The members of an object that are written take a reader of members from one state to another;
those without a value are not written. -/
inductive Fills (member : σ → String → Reader σ) :
    σ → List (String × Option (List Char)) → σ → Prop where
  | nil (state : σ) : Fills member state [] state
  | left_out {state final : σ} {key : String} {others : List (String × Option (List Char))}
      (hothers : Fills member state others final) :
      Fills member state ((key, none) :: others) final
  | written {state next final : σ} {key : String} {value : List Char}
      {others : List (String × Option (List Char))}
      (hmember : ∀ rest, Takes (member state key) (':' :: value ++ rest) rest next)
      (hothers : Fills member next others final) :
      Fills member state ((key, some value) :: others) final

/-- The members of an object as they are written, those without a value left out. -/
def written (entries : List (String × Option (List Char))) : List (List Char) :=
  entries.filterMap fun (key, value) => value.map (writeMember key)

theorem membersBehind_takes {member : σ → String → Reader σ} {state final : σ}
    {entries : List (String × Option (List Char))} (h : Fills member state entries final)
    (fuel : Nat) (hfuel : (written entries).length < fuel) (rest : List Char) :
    Takes (members member fuel false state)
      ((written entries).flatMap ([','] ++ ·) ++ '\x7d' :: rest) ('\x7d' :: rest) final := by
  induction h generalizing fuel with
  | nil state =>
    match fuel, hfuel with
    | fuel + 1, _ =>
      exact .bind (.bind (peekToken_takes (by decide) rest) (.pure _ _)) (.pure _ _)
  | left_out hothers ih => exact ih fuel hfuel
  | @written state next final key value others hmember hothers ih =>
    match fuel, hfuel with
    | fuel + 1, hfuel =>
      have htext : (written ((key, some value) :: others)).flatMap ([','] ++ ·) ++ '\x7d' :: rest
          = ',' :: (writeText key ++ (':' :: value
            ++ ((written others).flatMap ([','] ++ ·) ++ '\x7d' :: rest))) := by
        simp [written, writeMember]
      rw [htext]
      have hkey : Takes (key? false) (',' :: (writeText key ++ (':' :: value
          ++ ((written others).flatMap ([','] ++ ·) ++ '\x7d' :: rest)))) (':' :: value
          ++ ((written others).flatMap ([','] ++ ·) ++ '\x7d' :: rest)) (some key) :=
        .bind (peekToken_takes (by decide) _) (.bind (advance_takes ',' _)
          (.bind (peekToken_takes (by decide) _) (.bind (text_takes key _) (.pure _ _))))
      exact .bind hkey (.bind (hmember _) (ih fuel (Nat.lt_of_succ_lt_succ hfuel)))

theorem members_takes {member : σ → String → Reader σ} {state final : σ}
    {entries : List (String × Option (List Char))} (h : Fills member state entries final)
    (fuel : Nat) (hfuel : (written entries).length < fuel) (rest : List Char) :
    Takes (members member fuel true state)
      (Text.joinWith [','] (written entries) ++ '\x7d' :: rest) ('\x7d' :: rest) final := by
  induction h with
  | nil state =>
    match fuel, hfuel with
    | fuel + 1, _ =>
      exact .bind (.bind (peekToken_takes (by decide) rest) (.pure _ _)) (.pure _ _)
  | left_out hothers ih => exact ih hfuel
  | @written state next final key value others hmember hothers =>
    match fuel, hfuel with
    | fuel + 1, hfuel =>
      have htext : Text.joinWith [','] (written ((key, some value) :: others)) ++ '\x7d' :: rest
          = writeText key ++ (':' :: value
            ++ ((written others).flatMap ([','] ++ ·) ++ '\x7d' :: rest)) := by
        rw [show written ((key, some value) :: others) = writeMember key value :: written others
          from rfl, joinWith_cons]
        simp [writeMember]
      rw [htext]
      have hkey : Takes (key? true) (writeText key ++ (':' :: value
          ++ ((written others).flatMap ([','] ++ ·) ++ '\x7d' :: rest))) (':' :: value
          ++ ((written others).flatMap ([','] ++ ·) ++ '\x7d' :: rest)) (some key) :=
        .bind (peekToken_takes (by decide) _) (.bind (text_takes key _) (.pure _ _))
      exact .bind hkey (.bind (hmember _)
        (membersBehind_takes hothers fuel (Nat.lt_of_succ_lt_succ hfuel) rest))

theorem endOfObject_takes (rest : List Char) : Takes endOfObject ('\x7d' :: rest) rest () :=
  .bind (peekToken_takes (by decide) rest) (advance_takes '\x7d' rest)

theorem colon_takes (rest : List Char) : Takes colon (':' :: rest) rest () :=
  .bind (peekToken_takes (by decide) rest) (advance_takes ':' rest)

/-- **A written object is read back.** -/
theorem objectOf_takes {depth : Nat} (hdepth : 1 < depth) {member : σ → String → Reader σ}
    {initial final : σ} {entries : List (String × Option (List Char))}
    (h : Fills member initial entries final) (rest : List Char) :
    Takes (objectOf depth initial member) (writeObject entries ++ rest) rest final := by
  have hlength := length_le_joinWith (written entries)
  have htext : writeObject entries ++ rest
      = '\x7b' :: (Text.joinWith [','] (written entries) ++ '\x7d' :: rest) := by
    simp [writeObject, written]
  rw [htext, objectOf, if_neg (by omega)]
  refine .bind (advance_takes '\x7b' _) (.closedBy (.remaining ?_) (endOfObject_takes rest))
  refine members_takes h _ ?_ rest
  rw [List.length_append, List.length_cons]
  omega

end Reader

end Json

end AmdModules
