import AmdModules.MediaType
import AmdModules.Proofs.Script.Alphabet
import AmdModules.Proofs.Script.Token
import AmdModules.Proofs.Shim.Define
import AmdModules.Proofs.Shim.Grammar
import Mathlib.Data.List.TakeWhile

/-!
# How an exported name is read

The definition of a script with `exports` ends with the global that it answers, written as it was
given. What a script reads there (`Lexes`) is a chain of members with exactly the given names, as
long as each of them is an identifier name. For accepted exports this hangs on their word characters
alone: it is so when none of them is stray (`strayRanges`), and with a stray character it is not.
-/

set_option autoImplicit false

namespace AmdModules

namespace Script

open Text Unicode

/-! ## Reading tokens one after the other -/

/-- A name as the grammar of scripts has it. -/
def IsIdentifierName (name : List Char) : Prop :=
  ∃ c rest, name = c :: rest ∧ isNameStart c = true ∧ ∀ d ∈ rest, isNamePart d = true

/-- A text starts with a token, wherever it stands and whatever has been read in front of it. -/
def StartsWithToken (cs : List Char) (kind : TokenKind) (rest : List Char) : Prop :=
  ∀ lineEnded comments offset, (readToken lineEnded comments offset cs).token.kind = kind
    ∧ (readToken lineEnded comments offset cs).rest = rest

/-- Reading a text gives tokens, one after the other, and leaves the rest of it. -/
inductive Lexes : List Char → List TokenKind → List Char → Prop
  | done (cs : List Char) : Lexes cs [] cs
  | token {cs next rest : List Char} {kind : TokenKind} {kinds : List TokenKind}
    (h : StartsWithToken cs kind next) (hrest : Lexes next kinds rest) :
    Lexes cs (kind :: kinds) rest

theorem StartsWithToken.unique {cs rest rest' : List Char} {kind kind' : TokenKind}
    (h : StartsWithToken cs kind rest) (h' : StartsWithToken cs kind' rest') :
    kind = kind' ∧ rest = rest' :=
  ⟨(h false [] 0).1.symm.trans (h' false [] 0).1, (h false [] 0).2.symm.trans (h' false [] 0).2⟩

/-- Behind a token that is known, reading goes on. -/
theorem StartsWithToken.lexes_iff {cs next rest : List Char} {kind : TokenKind}
    {kinds : List TokenKind} (h : StartsWithToken cs kind next) :
    Lexes cs (kind :: kinds) rest ↔ Lexes next kinds rest := by
  constructor
  · rintro (_ | ⟨h', hrest⟩)
    rwa [(h.unique h').2]
  · exact .token h

/-- Characters that are no blank space and start none. -/
structure Solid (c : Char) : Prop where
  not_lineEnd : isLineEnd c = false
  not_space : isSpace c = false
  not_opening : c ≠ '/' ∧ c ≠ '<' ∧ c ≠ '-'

/-- In front of a solid character nothing is skipped. -/
theorem Solid.startsWithToken_iff {c : Char} (h : Solid c) {cs rest : List Char}
    {kind : TokenKind} :
    StartsWithToken (c :: cs) kind rest
      ↔ (readKind (c :: cs)).1 = kind ∧ (readKind (c :: cs)).2.2 = rest := by
  obtain ⟨hline, hspace, hslash, hless, hminus⟩ := h
  have hskip (lineEnded : Bool) (comments : List Span) (offset : Nat) :
      skipBlank .space 0 offset lineEnded none comments (c :: cs)
        = ⟨c :: cs, offset, lineEnded, none, comments⟩ := by
    simp [skipBlank, hline, hspace, hslash, hless, hminus]
  simp only [StartsWithToken, readToken, hskip, forall_const]

/-- A text that starts like a name gives the word up to the first character that is no part of a
name, unless an escape follows. -/
theorem readKind_word {c : Char} {cs : List Char} (hstart : isNameStart c = true)
    (hplain : ((c :: cs).dropWhile isNamePart).head? ≠ some '\\') :
    (readKind (c :: cs)).1 = .word (String.ofList ((c :: cs).takeWhile isNamePart))
      ∧ (readKind (c :: cs)).2.2 = (c :: cs).dropWhile isNamePart := by
  have hname : readName (c :: cs)
      = some ((c :: cs).takeWhile isNamePart, (c :: cs).dropWhile isNamePart, false) := by
    unfold readName
    rw [List.span_eq_takeWhile_dropWhile]
    dsimp only
    split
    · rename_i hdrop
      rw [hdrop] at hplain
      exact absurd rfl hplain
    · rfl
  simp [readKind, hstart, hname]

end Script

namespace Shim

open Script Text Unicode

/-! ## The names of an accepted global -/

/-- Where the characters stand that a name of a global starts with. -/
theorem toNat_of_startsName {c : Char} (h : startsName c = true) :
    (65 ≤ c.toNat ∧ c.toNat ≤ 90) ∨ (97 ≤ c.toNat ∧ c.toNat ≤ 122) ∨ c.toNat = 95
      ∨ c.toNat = 36 := by
  simp only [startsName, Bool.or_eq_true, Text.isAlpha_iff, beq_iff_eq] at h
  rcases h with ((hupper | hlower) | rfl) | rfl
  · exact .inl hupper
  · exact .inr (.inl hlower)
  · exact .inr (.inr (.inl rfl))
  · exact .inr (.inr (.inr rfl))

theorem isNameStart_of_startsName {c : Char} (h : startsName c = true) : isNameStart c = true := by
  have hplace := toNat_of_startsName h
  have hlower : ('a' ≤ c ∧ c ≤ 'z') ↔ 97 ≤ c.toNat ∧ c.toNat ≤ 122 := Iff.rfl
  have hupper : ('A' ≤ c ∧ c ≤ 'Z') ↔ 65 ≤ c.toNat ∧ c.toNat ≤ 90 := Iff.rfl
  simp only [isNameStart, show c.toNat < 128 by omega, if_true, Bool.or_eq_true, Bool.and_eq_true,
    decide_eq_true_eq, beq_iff_eq, hlower, hupper, ← Char.toNat_inj, Char.reduceToNat]
  omega

theorem solid_of_startsName {c : Char} (h : startsName c = true) : Solid c := by
  have hplace := toNat_of_startsName h
  have hspaces : ('\u2000' ≤ c ∧ c ≤ '\u200a') ↔ 0x2000 ≤ c.toNat ∧ c.toNat ≤ 0x200A := Iff.rfl
  refine ⟨?_, ?_, ?_⟩
  · rw [← Bool.not_eq_true]
    simp only [isLineEnd, Bool.or_eq_true, beq_iff_eq, ← Char.toNat_inj, Char.reduceToNat]
    omega
  · rw [← Bool.not_eq_true]
    simp only [isSpace, Bool.or_eq_true, Bool.and_eq_true, decide_eq_true_eq, beq_iff_eq, hspaces,
      ← Char.toNat_inj, Char.reduceToNat]
    omega
  · simp only [ne_eq, ← Char.toNat_inj, Char.reduceToNat]
    omega

theorem isNamePart_of_isNameStart {c : Char} (h : isNameStart c = true) : isNamePart c = true := by
  unfold isNamePart
  split <;> simp [h]

/-- The characters of an accepted name are parts of a name just when they are not stray. -/
theorem isNamePart_iff_of_mem {name : List Char} (h : IsGlobalName name) {c : Char}
    (hc : c ∈ name) : isNamePart c = true ↔ strayRanges.has c = false := by
  obtain ⟨first, rest, rfl, hstart, hrest⟩ := h
  have hpart (hpart : isNamePart c = true) :
      isNamePart c = true ↔ strayRanges.has c = false :=
    iff_of_true hpart (strayRanges_has_of_isNamePart hpart)
  rcases List.mem_cons.mp hc with rfl | hc
  · exact hpart (isNamePart_of_isNameStart (isNameStart_of_startsName (startsName_iff.mpr hstart)))
  · rcases hrest c hc with hword | rfl
    · exact isNamePart_iff_of_isWordChar hword
    · exact hpart (by decide)

theorem not_stray_of_any {name : List Char} (h : name.any strayRanges.has = false) :
    ∀ c ∈ name, strayRanges.has c = false :=
  fun c hc => Bool.not_eq_true _ ▸ List.any_eq_false.mp h c hc

/-- **An accepted name is an identifier name exactly when it holds no stray character.** -/
theorem isIdentifierName_iff {name : List Char} (h : IsGlobalName name) :
    IsIdentifierName name ↔ ∀ c ∈ name, strayRanges.has c = false := by
  constructor
  · rintro ⟨first, rest, rfl, hstart, hrest⟩ c hc
    refine (isNamePart_iff_of_mem h hc).mp ?_
    rcases List.mem_cons.mp hc with rfl | hc
    · exact isNamePart_of_isNameStart hstart
    · exact hrest c hc
  · intro hstray
    obtain ⟨first, rest, rfl, hstart, hrest⟩ := id h
    exact ⟨first, rest, rfl, isNameStart_of_startsName (startsName_iff.mpr hstart),
      fun c hc => (isNamePart_iff_of_mem h (List.mem_cons_of_mem _ hc)).mpr
        (hstray c (List.mem_cons_of_mem _ hc))⟩

/-! ## Reading a chain -/

/-- What follows a name of a global: a dot, or the semicolon behind the last one. -/
def EndsName (tail : List Char) : Prop :=
  ∃ after, tail = '.' :: after ∨ tail = ';' :: after

theorem backslash_not_mem {name : List Char} (h : IsGlobalName name) : '\\' ∉ name := by
  obtain ⟨c, rest, rfl, hc, hrest⟩ := h
  intro hmem
  rcases List.mem_cons.mp hmem with rfl | hmem
  · exact absurd hc (by decide)
  · exact absurd (hrest _ hmem) (by decide)

/-- A name that is accepted is read as that name exactly when it holds no stray character. -/
theorem startsWithToken_name_iff {name tail rest : List Char} (hname : IsGlobalName name)
    (htail : EndsName tail) :
    StartsWithToken (name ++ tail) (.word (String.ofList name)) rest
      ↔ (∀ c ∈ name, strayRanges.has c = false) ∧ rest = tail := by
  have hstray : (∀ c ∈ name, strayRanges.has c = false) ↔ ∀ c ∈ name, isNamePart c = true :=
    forall₂_congr fun c hc => (isNamePart_iff_of_mem hname hc).symm
  have hdrop : tail.dropWhile isNamePart = tail := by
    obtain ⟨after, rfl | rfl⟩ := htail <;> rfl
  have htake : tail.takeWhile isNamePart = [] := by
    obtain ⟨after, rfl | rfl⟩ := htail <;> rfl
  have hplain : ((name ++ tail).dropWhile isNamePart).head? ≠ some '\\' := by
    rw [List.dropWhile_append, hdrop]
    split
    · obtain ⟨after, rfl | rfl⟩ := htail <;> simp
    · cases hrest : name.dropWhile isNamePart with
      | nil => simp_all
      | cons d ds =>
        have hmem : d ∈ name := (List.dropWhile_sublist _).subset (hrest ▸ List.mem_cons_self)
        rintro ⟨rfl⟩
        exact backslash_not_mem hname hmem
  obtain ⟨c, cs, rfl, hstart, hparts⟩ := id hname
  have hstart := startsName_iff.mpr hstart
  obtain ⟨hkind, hbehind⟩ :=
    @readKind_word c (cs ++ tail) (isNameStart_of_startsName hstart) hplain
  rw [List.cons_append, (solid_of_startsName hstart).startsWithToken_iff, hkind, hbehind, hstray,
    ← List.cons_append, TokenKind.word.injEq, String.ofList_inj, eq_comm (a := rest)]
  constructor
  · rintro ⟨htaken, hrest⟩
    have hall : ∀ d ∈ c :: cs, isNamePart d = true := by
      rw [← htaken]
      exact fun d hd => List.mem_takeWhile_imp hd
    refine ⟨hall, ?_⟩
    rw [← hrest, List.dropWhile_append_of_pos hall, hdrop]
  · rintro ⟨hall, rfl⟩
    rw [List.takeWhile_append_of_pos hall, List.dropWhile_append_of_pos hall, hdrop, htake,
      List.append_nil]
    exact ⟨rfl, rfl⟩

theorem startsWithToken_dot {c : Char} (h : startsName c = true) (cs : List Char) :
    StartsWithToken ('.' :: c :: cs) (.mark ".") (c :: cs) := by
  have hdot : Solid '.' ∧ isNameStart '.' = false ∧ isDigit '.' = false :=
    ⟨⟨by decide, by decide, by decide⟩, by decide, by decide⟩
  have hplace := toNat_of_startsName h
  have hdigit : isDigit c = false := by
    have hrange : ('0' ≤ c ∧ c ≤ '9') ↔ 48 ≤ c.toNat ∧ c.toNat ≤ 57 := Iff.rfl
    rw [← Bool.not_eq_true]
    simp only [isDigit, Bool.and_eq_true, decide_eq_true_eq, hrange]
    omega
  have hne : '.' ≠ c := by
    rintro rfl
    exact absurd h (by decide)
  have hmark : readMark? ('.' :: c :: cs) = some (".", c :: cs) := by
    simp [readMark?, marks, startsWith, hne]
  rw [hdot.1.startsWithToken_iff]
  simp [readKind, hmark, hdigit, hdot]

theorem startsWithToken_semicolon (cs : List Char) :
    StartsWithToken (';' :: cs) (.mark ";") cs := by
  have hsolid : Solid ';' := ⟨by decide, by decide, by decide⟩
  rw [hsolid.startsWithToken_iff]
  exact ⟨rfl, rfl⟩

/-- Members, one after the other: for each a dot and its name. -/
def memberTokens (names : List (List Char)) : List TokenKind :=
  names.flatMap fun name => [.mark ".", .word (String.ofList name)]

/-- **Members are read with exactly their names when these hold no stray character, and only
then.** -/
theorem lexes_members_iff {names : List (List Char)} (h : ∀ name ∈ names, IsGlobalName name)
    (after : List Char) :
    Lexes (names.flatMap ('.' :: ·) ++ ';' :: after) (memberTokens names ++ [.mark ";"]) after
      ↔ ∀ name ∈ names, ∀ c ∈ name, strayRanges.has c = false := by
  induction names with
  | nil =>
    refine iff_of_true ?_ (by simp)
    exact .token (startsWithToken_semicolon after) (.done after)
  | cons name names ih =>
    obtain ⟨hname, hnames⟩ := List.forall_mem_cons.mp h
    have htail : EndsName (names.flatMap ('.' :: ·) ++ ';' :: after) := by
      cases names with
      | nil => exact ⟨after, .inr rfl⟩
      | cons name names => exact ⟨_, .inl rfl⟩
    have hread (rest : List Char) := @startsWithToken_name_iff name _ rest hname htail
    have hdot : StartsWithToken ('.' :: (name ++ (names.flatMap ('.' :: ·) ++ ';' :: after)))
        (.mark ".") (name ++ (names.flatMap ('.' :: ·) ++ ';' :: after)) := by
      obtain ⟨c, cs, rfl, hstart, -⟩ := id hname
      exact startsWithToken_dot (startsName_iff.mpr hstart) _
    simp only [List.flatMap_cons, memberTokens, List.cons_append, List.append_assoc,
      List.nil_append, hdot.lexes_iff, List.forall_mem_cons]
    rw [← ih hnames]
    constructor
    · rintro (_ | ⟨hword, hrest⟩)
      obtain ⟨hstray, rfl⟩ := (hread _).mp hword
      exact ⟨hstray, hrest⟩
    · rintro ⟨hstray, hrest⟩
      exact .token ((hread _).mpr ⟨hstray, rfl⟩) hrest

/-! ## The global in the definition of a script -/

/-- The names that an accepted text consists of. -/
theorem isGlobalName_of_mem_splitOn {text : List Char} (h : IsDotted text) :
    ∀ name ∈ splitOn '.' text, IsGlobalName name := by
  have hnames := isDottedName_iff.mpr h
  simpa only [isDottedName, List.all_eq_true, isName_iff] using hnames

/-- A dotted name with a dot in front of it is its members. -/
theorem dot_cons_eq_flatMap (text : List Char) :
    '.' :: text = (splitOn '.' text).flatMap ('.' :: ·) := by
  have hjoin : joinWith ['.'] (splitOn '.' text) = text := by
    rw [joinWith_eq, splitOn_eq, List.intercalate_splitOn]
  cases hnames : splitOn '.' text with
  | nil =>
    rw [splitOn_eq] at hnames
    exact absurd hnames (List.splitOn_ne_nil _ _)
  | cons name names =>
    rw [hnames, Json.Reader.joinWith_cons] at hjoin
    rw [List.flatMap_cons, ← hjoin]
    rfl

/-- What follows the global in the definition of a script. -/
def behindGlobal : List Char :=
  "\n    \x7d;\n\x7d(this)));\n".toList

theorem factoryText_eq (exports : String) (init : Option String) :
    ∃ front, factoryText exports init
      = front ++ ("global".toList ++ ('.' :: exports.toList ++ ';' :: behindGlobal)) := by
  have hassoc (front before global exports behind : List Char) :
      front ++ (before ++ (global ++ ['.'])) ++ exports ++ behind
        = (front ++ before) ++ (global ++ ('.' :: exports ++ behind)) := by
    simp
  have hglobal : "        return ret || global.".toList
      = "        return ret || ".toList ++ ("global".toList ++ ['.']) := rfl
  have hbehind : ";\n    \x7d;\n\x7d(this)));\n".toList = ';' :: behindGlobal := rfl
  unfold factoryText
  exact ⟨_, (congrArg₂ (fun text behind => _ ++ text ++ exports.toList ++ behind) hglobal
    hbehind).trans (hassoc ..)⟩

/-- The definition of a script with `exports` ends with the global that it answers. -/
theorem define_eq_append_global (name exports : String) (deps : List String)
    (init : Option String) :
    ∃ front, define name (some ⟨deps, some exports, init⟩)
      = front ++ ("global".toList ++ ('.' :: exports.toList ++ ';' :: behindGlobal)) := by
  obtain ⟨front, hfactory⟩ := factoryText_eq exports init
  have hassoc (opening needs front chain : List Char) :
      opening ++ (needs ++ (front ++ chain)) = opening ++ (needs ++ front) ++ chain := by
    simp
  unfold define
  exact ⟨_, (congrArg (fun factory => _ ++ (depsText deps ++ factory)) hfactory).trans
    (hassoc ..)⟩

/-- **When accepted exports are names of a script.** The names between the dots are identifier names
exactly when they hold no stray character. The definition of the script ends with `global`, a dot
and the exports, and what is read there is the chain of members with exactly these names and the
semicolon behind it, again just when no character is stray. -/
theorem exports_read {deps : List String} {exports : String} {init : Option String} {shim : Shim}
    (h : ofParts deps (some exports) init = .ok shim) (name : String) :
    (∀ part ∈ splitOn '.' exports.toList,
        IsIdentifierName part ↔ ∀ c ∈ part, strayRanges.has c = false)
      ∧ ∃ front chain, define name (some shim) = front ++ chain
        ∧ chain = "global.".toList ++ exports.toList ++ ';' :: behindGlobal
        ∧ (Lexes chain
            (.word "global" :: memberTokens (splitOn '.' exports.toList) ++ [.mark ";"]) behindGlobal
          ↔ ∀ part ∈ splitOn '.' exports.toList, IsIdentifierName part) := by
  obtain ⟨rfl, hvalid⟩ := ofParts_eq_ok_iff.mp h
  have hnames := isGlobalName_of_mem_splitOn (hvalid.isDotted exports rfl)
  have hidentifier (part : List Char) (hpart : part ∈ splitOn '.' exports.toList) :=
    isIdentifierName_iff (hnames part hpart)
  obtain ⟨front, hdefine⟩ := define_eq_append_global name exports deps init
  refine ⟨hidentifier, front, _, hdefine, rfl, ?_⟩
  have hglobal : StartsWithToken
      ("global".toList ++ ('.' :: exports.toList ++ ';' :: behindGlobal)) (.word "global")
      ('.' :: exports.toList ++ ';' :: behindGlobal) := by
    refine (startsWithToken_name_iff ?_ ⟨_, .inl rfl⟩).mpr ⟨not_stray_of_any (by decide), rfl⟩
    exact isName_iff.mp (by decide)
  refine hglobal.lexes_iff.trans ?_
  rw [dot_cons_eq_flatMap]
  refine (lexes_members_iff hnames behindGlobal).trans ?_
  exact forall₂_congr fun part hpart => (hidentifier part hpart).symm

/-- A shim whose exports hold a sign, a wide letter and a keyword. -/
def wideExports : String :=
  "$.naïve.class"

theorem exports_read_wide :
    ofParts ["a"] (some wideExports) none = .ok { deps := ["a"], exports := some wideExports }
      ∧ ∃ front chain,
        define "m" (some { deps := ["a"], exports := some wideExports }) = front ++ chain
          ∧ Lexes chain
            [.word "global", .mark ".", .word "$", .mark ".", .word "naïve", .mark ".",
              .word "class", .mark ";"] behindGlobal := by
  have hok : ofParts ["a"] (some wideExports) none
      = .ok { deps := ["a"], exports := some wideExports } := by
    rfl
  obtain ⟨hidentifier, front, chain, hdefine, -, hlexes⟩ := exports_read hok "m"
  refine ⟨hok, front, chain, hdefine, hlexes.mpr fun part hpart => ?_⟩
  have hstray : (splitOn '.' wideExports.toList).any (·.any strayRanges.has) = false := by
    decide
  exact (hidentifier part hpart).mpr
    (not_stray_of_any (Bool.not_eq_true _ ▸ List.any_eq_false.mp hstray part hpart))

/-- A shim whose exports hold a letter in a circle. -/
def circledExports : Shim where
  deps := []
  exports := some "aⒶ"

/-- **Accepted exports need not be names.** The letter in the circle is a word character, but a
script that has it in a name is refused, and so is the definition that is written for the shim. -/
theorem circledExports_refused :
    ofParts [] (some "aⒶ") none = .ok circledExports
      ∧ splitOn '.' "aⒶ".toList = [['a', 'Ⓐ']] ∧ ¬IsIdentifierName ['a', 'Ⓐ']
      ∧ Script.parse MediaType.javaScript.dialect (define "m" (some circledExports)) = none := by
  have hrun : ofParts [] (some "aⒶ") none = .ok circledExports
      ∧ Script.parse MediaType.javaScript.dialect (define "m" (some circledExports)) = none := by
    decide +kernel
  refine ⟨hrun.1, by decide, ?_, hrun.2⟩
  rintro ⟨c, rest, heq, -, hrest⟩
  cases heq
  have hstray := strayRanges_has_of_isNamePart (hrest 'Ⓐ' List.mem_cons_self)
  exact absurd hstray (by decide)

end Shim

end AmdModules
