import AmdModules.Proofs.Reread.Literal
import AmdModules.Proofs.Shim.Define

/-!
# Arguments that are put in

What is put into a call are strings and arrays of strings. `Written` is the text of such a literal
together with its tree, `Leading` the text of arguments, each with a comma behind it. A grammar with
room for them reads them and goes on behind them as if they were not there (`takes_leading`).
-/

set_option autoImplicit false

namespace AmdModules.Script

open Text

/-! ## Texts of tokens -/

/-- A text that is read as one token, whatever follows it. -/
structure Lexeme (spelling : List Char) (kind : TokenKind) : Prop where
  read : ∀ rest, readKind (spelling ++ rest) = (kind, byteLength spelling, rest)
  bare : ∀ rest, startsBlank false (spelling ++ rest) = false

theorem lexeme_comma : Lexeme [','] (.mark ",") :=
  ⟨fun _ => rfl, fun _ => rfl⟩

theorem lexeme_opening : Lexeme ['['] (.mark "[") :=
  ⟨fun _ => rfl, fun _ => rfl⟩

theorem lexeme_closing : Lexeme [']'] (.mark "]") :=
  ⟨fun _ => rfl, fun _ => rfl⟩

theorem lexeme_parenthesis : Lexeme ['('] (.mark "(") :=
  ⟨fun _ => rfl, fun _ => rfl⟩

theorem lexeme_of_spells {spelling : List Char} {value : String}
    (h : Shim.Spells spelling value) : Lexeme spelling (.string value) := by
  refine ⟨h.read, fun rest => ?_⟩
  obtain ⟨inside, rfl⟩ := h.quotes
  rfl

/-- Nothing, or a single blank. -/
def IsGap (gap : List Char) : Prop :=
  gap = [] ∨ gap = [' ']

/-- The token at a place is the first one from there on. -/
theorem Lexeme.behindToken_eq {text spelling rest : List Char} {o : Nat} {kind : TokenKind}
    (h : Lexeme spelling kind) (hfrom : From text o (spelling ++ rest)) :
    behindToken text o = o + byteLength spelling := by
  obtain ⟨before, hsplit⟩ := hfrom.splitAt?
  have hblank := skipBlank_of_startsBlank (h.bare rest) o none []
  rw [behindToken, tokenFrom?, hsplit]
  simp only [Option.map_some, Filling.readToken_eq hblank (h.read rest), Option.getD_none]

/-- The token a text starts with is read. -/
theorem State.At.token {s : State} {gap spelling cs : List Char} {kind : TokenKind}
    (h : s.At (gap ++ (spelling ++ cs))) (hgap : IsGap gap) (hlexeme : Lexeme spelling kind) :
    s.reading.token.kind = kind ∧ s.next.At cs
      ∧ s.next.lastEnd = s.lastEnd + byteLength gap + byteLength spelling
      ∧ s.next.inModule = s.inModule := by
  obtain ⟨earlier, hreading⟩ := h
  have hblank : skipBlank .space 0 s.lastEnd false none earlier (gap ++ (spelling ++ cs))
      = ⟨spelling ++ cs, s.lastEnd + byteLength gap, false, none, earlier⟩ := by
    rcases hgap with rfl | rfl
    · exact skipBlank_of_startsBlank (hlexeme.bare cs) _ _ _
    · exact skipBlank_of_startsBlank (hlexeme.bare cs) _ _ _
  rw [Filling.readToken_eq hblank (hlexeme.read cs)] at hreading
  rw [State.next, State.jump, hreading]
  exact ⟨rfl, ⟨_, rfl⟩, rfl, rfl⟩

theorem State.At.mark {s : State} {m : Char} {cs : List Char} {kind : TokenKind}
    (h : s.At (m :: cs)) (hlexeme : Lexeme [m] kind) :
    s.reading.token.kind = kind ∧ s.next.At cs ∧ s.next.lastEnd = s.lastEnd + m.utf8Size
      ∧ s.next.inModule = s.inModule := by
  have h' : s.At ([] ++ ([m] ++ cs)) := h
  simpa using h'.token (.inl rfl) hlexeme

/-! ## Literals -/

/-- The text of a string or of an array of strings, and its tree. -/
inductive Written : List Char → Node → Prop
  | string {spelling : List Char} {value : String} (h : Lexeme spelling (.string value)) :
    Written spelling (.mk (.string value) ⟨0, 0⟩ [])
  | empty : Written "[]".toList (.mk .array ⟨0, 0⟩ [])
  | array {inside : List Char} {ids : List String} (h : Shim.SpellsAll inside ids) :
    Written ('[' :: (inside ++ [']'])) (.mk .array ⟨0, 0⟩ (ids.map fun id =>
      .mk (.string id) ⟨0, 0⟩ []))

theorem length_le_of_spellsAll {inside : List Char} {ids : List String}
    (h : Shim.SpellsAll inside ids) : ids.length ≤ inside.length := by
  induction h with
  | last h =>
    obtain ⟨inside, rfl⟩ := h.quotes
    simp
  | next h hothers ih =>
    obtain ⟨inside, rfl⟩ := h.quotes
    simp only [List.length_cons, List.length_append]
    omega

namespace Parser

variable {g : Grammar} {c : Context} {s : State}

/-- An element of an array literal, with its comma. -/
def arrayItem (g : Grammar) : Parser (List Node) := do
  let here ← position
  if ← eat "," then return [.mk .hole ⟨here, here⟩ []]
  else
    let item ← element g
    separator "]"
    return [item]

theorem arrayItem_eq {n : Node} {t u : State} (hs : s.reading.token.kind ≠ .mark ",")
    (hitem : element g c s = .done n t) (hseparator : separator "]" c t = .done () u) :
    arrayItem g c s = .done [n] u :=
  bind_eq_done rfl <| bind_eq_done (eat_eq_false hs) <| bind_eq_done hitem <|
    bind_eq_done hseparator rfl

theorem arrayLiteral_eq {items : List Node} {t : State} (hs : s.reading.token.kind = .mark "[")
    (hitems : manyUntil (isMarkOrEnd "]") (arrayItem g) g.limit c s.next = .done items t)
    (ht : t.reading.token.kind = .mark "]") :
    arrayLiteral g c s
      = .done (.mk .array ⟨s.reading.token.span.start, t.next.lastEnd⟩ items) t.next :=
  bind_eq_done rfl <| bind_eq_done (expect_eq hs) <| bind_eq_done hitems <|
    bind_eq_done (expect_eq ht) rfl

/-- The ids of an array are read one by one. -/
theorem manyElements_spelled {inside : List Char} {ids : List String}
    (h : Shim.SpellsAll inside ids) {gap cs : List Char} (hgap : IsGap gap)
    (hat : s.At (gap ++ (inside ++ ']' :: cs))) {limit room : Nat} (hlimit : ids.length < limit) :
    ∃ ns t, (∀ c, manyUntil (isMarkOrEnd "]") (arrayItem (grammar (room + 3))) limit c s
        = .done ns t)
      ∧ ns.map Node.plain = ids.map (fun id => .mk (.string id) ⟨0, 0⟩ [])
      ∧ t.At (']' :: cs) ∧ t.lastEnd = s.lastEnd + byteLength gap + byteLength inside
      ∧ t.inModule = s.inModule := by
  induction h generalizing s gap limit with
  | last h =>
    obtain ⟨limit, rfl⟩ : ∃ n, limit = n + 2 := ⟨limit - 2, by simp at hlimit; omega⟩
    obtain ⟨hkind, hnext, hlast, hmodule⟩ := hat.token hgap (lexeme_of_spells h)
    obtain ⟨hclose, -⟩ := hnext.mark lexeme_closing
    have hitem (c : Context) : arrayItem (grammar (room + 3)) c s = .done [_] s.next :=
      arrayItem_eq (by rw [hkind]; nofun) (element_string hkind (.inr (.inr hclose)))
        (separator_close hclose)
    have hnil (c : Context) :
        manyUntil (isMarkOrEnd "]") (arrayItem (grammar (room + 3))) (limit + 1) c s.next
          = .done [] s.next := manyUntil_nil limit (isMarkOrEnd_of_mark hclose)
    exact ⟨_, _, fun c => manyUntil_cons (by simp [isMarkOrEnd, hkind]) (hitem c) (hnil c), rfl,
      hnext, hlast, hmodule⟩
  | @next spelling others value values h hothers ih =>
    obtain ⟨limit, rfl⟩ : ∃ n, limit = n + 1 := ⟨limit - 1, by simp at hlimit; omega⟩
    have hsplit : gap ++ (spelling ++ (", ".toList ++ others) ++ ']' :: cs)
        = gap ++ (spelling ++ (',' :: ([' '] ++ (others ++ ']' :: cs)))) := by simp
    rw [hsplit] at hat
    obtain ⟨hkind, hnext, hlast, hmodule⟩ := hat.token hgap (lexeme_of_spells h)
    obtain ⟨hcomma, hbehind, hlast', hmodule'⟩ := hnext.mark lexeme_comma
    have hitem (c : Context) : arrayItem (grammar (room + 3)) c s = .done [_] s.next.next :=
      arrayItem_eq (by rw [hkind]; nofun) (element_string hkind (.inl hcomma))
        (separator_comma (by decide) hcomma)
    obtain ⟨ns, t, hrun, hplain, ht, hlast'', hmodule''⟩ :=
      ih (.inr rfl) hbehind (Nat.lt_of_succ_lt_succ hlimit)
    refine ⟨_, t, fun c => manyUntil_cons (by simp [isMarkOrEnd, hkind]) (hitem c) (hrun c), ?_,
      ht, ?_, ?_⟩
    · simp [hplain, Node.plain_mk]
    · rw [hlast'', hlast', hlast]
      simp
      omega
    · rw [hmodule'', hmodule', hmodule]

theorem primary_array (hs : s.reading.token.kind = .mark "[") :
    primary g c s = arrayLiteral g c s := by
  simp only [primary, Bind.bind, andThen, token, context, hs]

/-- The bracket that closes an array. -/
theorem array_closed {items : List Node} {cs : List Char} {t : State}
    (hs : s.reading.token.kind = .mark "[")
    (hitems : ∀ c, manyUntil (isMarkOrEnd "]") (arrayItem g) g.limit c s.next = .done items t)
    (ht : t.At (']' :: cs)) :
    (∀ c, primary g c s
        = .done (.mk .array ⟨s.reading.token.span.start, t.next.lastEnd⟩ items) t.next)
      ∧ t.next.At cs ∧ t.next.lastEnd = t.lastEnd + 1 ∧ t.next.inModule = t.inModule := by
  obtain ⟨hclose, hnext⟩ := ht.mark lexeme_closing
  exact ⟨fun c => by rw [primary_array hs, arrayLiteral_eq hs (hitems c) hclose], hnext⟩

/-- **A literal that is put in is read.** -/
theorem element_written {literal : List Char} {n : Node} (h : Written literal n)
    {gap cs : List Char} (hgap : IsGap gap) (hat : s.At (gap ++ (literal ++ cs))) {limit : Nat}
    (hroom : literal.length + 5 ≤ limit)
    (hnext : ∀ t : State, t.At cs →
      t.lastEnd = s.lastEnd + byteLength gap + byteLength literal → t.reading.token.kind.Closes) :
    s.reading.token.kind.Opens ∧ ∃ m t, element (grammar limit) c s = .done m t ∧ m.plain = n
      ∧ t.At cs ∧ t.lastEnd = s.lastEnd + byteLength gap + byteLength literal
      ∧ t.inModule = s.inModule := by
  obtain ⟨room, rfl⟩ : ∃ room, limit = room + 5 := ⟨limit - 5, by omega⟩
  cases h with
  | string h =>
    obtain ⟨hkind, ht, hlast, hmodule⟩ := hat.token hgap h
    exact ⟨.inl ⟨_, hkind⟩, _, _, element_string hkind (hnext _ ht hlast), rfl, ht, hlast, hmodule⟩
  | empty =>
    have hat' : s.At (gap ++ (['['] ++ (']' :: cs))) := hat
    obtain ⟨hkind, ht, hlast, hmodule⟩ := hat'.token hgap lexeme_opening
    obtain ⟨hclose, -⟩ := ht.mark lexeme_closing
    obtain ⟨hprimary, ht', hlast', hmodule'⟩ := array_closed (g := grammar (room + 3)) hkind
      (fun c => manyUntil_nil _ (isMarkOrEnd_of_mark hclose)) ht
    have hend : s.next.next.lastEnd = s.lastEnd + byteLength gap + byteLength "[]".toList := by
      rw [hlast', hlast]
      rfl
    exact ⟨.inr hkind, _, _, element_literal (.inr hkind) (.inr rfl) (hnext _ ht' hend) hprimary,
      rfl, ht', hend, hmodule'.trans hmodule⟩
  | @array inside ids h =>
    have hat' : s.At (gap ++ (['['] ++ ([] ++ (inside ++ ']' :: cs)))) := by simpa using hat
    obtain ⟨hkind, ht, hlast, hmodule⟩ := hat'.token hgap lexeme_opening
    have hcount := length_le_of_spellsAll h
    have hlimit : ids.length < room + 3 := by
      simp only [List.length_cons, List.length_append] at hroom
      omega
    obtain ⟨ns, t, hitems, hplain, ht, hlast', hmodule'⟩ :=
      manyElements_spelled h (.inl rfl) ht hlimit
    obtain ⟨hprimary, ht', hlast'', hmodule''⟩ := array_closed hkind hitems ht
    have hend : t.next.lastEnd
        = s.lastEnd + byteLength gap + byteLength ('[' :: (inside ++ [']'])) := by
      have hopening : ('[' : Char).utf8Size = 1 := rfl
      have hclosing : (']' : Char).utf8Size = 1 := rfl
      simp only [byteLength_cons, byteLength_append, byteLength_nil] at hlast hlast' ⊢
      omega
    refine ⟨.inr hkind, _, _, element_literal (.inr hkind) (.inr rfl) (hnext _ ht' hend) hprimary,
      ?_, ht', hend, hmodule''.trans (hmodule'.trans hmodule)⟩
    rw [Node.plain_mk, hplain]

end Parser

/-! ## Arguments -/

/-- The text of arguments that are put in front of others, each with a comma behind it, and their
trees. -/
inductive Leading : List Char → List Node → Prop
  | nil : Leading [] []
  | cons {gap literal others : List Char} {n : Node} {ns : List Node} (hgap : IsGap gap)
    (h : Written literal n) (hothers : Leading others ns) :
    Leading (gap ++ (literal ++ ',' :: others)) (n :: ns)

theorem Written.plain {literal : List Char} {n : Node} (h : Written literal n) : n.plain = n := by
  cases h with
  | string => rfl
  | empty => rfl
  | array => simp [Node.plain_mk, Function.comp_def]

theorem Leading.plain {lead : List Char} {ns : List Node} (h : Leading lead ns) :
    ns.map Node.plain = ns := by
  induction h with
  | nil => rfl
  | cons _ h _ ih => rw [List.map_cons, h.plain, ih]

theorem Leading.nil_of_nil {ns : List Node} (h : Leading [] ns) : ns = [] := by
  generalize hlead : ([] : List Char) = lead at h
  cases h with
  | nil => rfl
  | cons => exact absurd hlead (by simp)

/-- **Arguments that are put in front of others are read**, and the parser goes on with the
others. -/
theorem takes_leading {lead : List Char} {ns : List Node} (h : Leading lead ns) {c : Context}
    {s : State} {cs : List Char} (hat : s.At (lead ++ cs)) {room : Nat}
    (hroom : lead.length + 5 ≤ room) :
    ∃ ms t, (grammar room).Takes c s ms t ∧ ms.map Node.plain = ns ∧ t.At cs
      ∧ t.lastEnd = s.lastEnd + byteLength lead ∧ t.inModule = s.inModule := by
  induction h generalizing s with
  | nil => exact ⟨[], s, fun _ _ _ hrun => hrun, rfl, hat, rfl, rfl⟩
  | @cons gap literal others n ns hgap h hothers ih =>
    have hsplit : gap ++ (literal ++ ',' :: others) ++ cs
        = gap ++ (literal ++ (',' :: (others ++ cs))) := by simp
    rw [hsplit] at hat
    simp only [List.length_append, List.length_cons] at hroom
    have hliteral : literal.length + 5 ≤ room := by omega
    obtain ⟨hopens, m, t, helement, hplain, ht, hlast, hmodule⟩ :=
      Parser.element_written (c := c) h hgap hat hliteral
        fun t ht _ => .inl (ht.mark lexeme_comma).1
    obtain ⟨hcomma, hbehind, hlast', hmodule'⟩ := ht.mark lexeme_comma
    obtain ⟨ms, u, htakes, hplains, hu, hlast'', hmodule''⟩ := ih hbehind (by omega)
    have hstop : Parser.isMarkOrEnd ")" c s = .done false s := by
      rcases hopens with ⟨value, hkind⟩ | hkind <;> simp [Parser.isMarkOrEnd, hkind]
    refine ⟨m :: ms, u, fun limit others v hrun => ?_, by rw [List.map_cons, hplain, hplains], hu,
      ?_, ?_⟩
    · have hall := Parser.manyUntil_cons hstop (Parser.argument_comma helement hcomma)
        (htakes limit others v hrun)
      exact hall
    · have hsize : (',' : Char).utf8Size = 1 := rfl
      simp only [byteLength_append, byteLength_cons] at *
      omega
    · rw [hmodule'', hmodule', hmodule]

end AmdModules.Script
