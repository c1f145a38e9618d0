import AmdModules.Proofs.Text.Split
import AmdModules.Shim.Basic

/-!
# Word characters in names

The name of a global may go on with any word character (`Shim.isWordChar`), a name of a script with
what the grammar of scripts allows (`isNamePart`). Both classes are made of letters, marks, digits
and connectors, but they are not the same. Word characters are alphabetic ones too, which letters in
circles and squares are, and marks of every kind; names have no enclosing marks, and a letter that is
reserved for patterns is none of theirs. `strayRanges` is the whole difference
(`isNamePart_iff_of_isWordChar`).
-/

set_option autoImplicit false

namespace AmdModules

namespace Unicode

/-! ## Tables apart -/

/-- Whether two tables have no code point in common. -/
def RangeTable.apart (table other : RangeTable) : Bool :=
  table.all fun r => other.all fun s => r.2 < s.1 || s.2 < r.1

theorem RangeTable.has_eq_false_of_apart {table other : RangeTable} (h : table.apart other = true)
    {c : Char} (hc : other.has c = true) : table.has c = false := by
  simp only [apart, has, List.all_eq_true, List.any_eq_true, List.any_eq_false, Bool.and_eq_true,
    Bool.or_eq_true, decide_eq_true_eq] at *
  obtain ⟨s, hs, hin⟩ := hc
  intro r hr
  have := h r hr s hs
  omega

theorem RangeTable.has_append (table other : RangeTable) (c : Char) :
    RangeTable.has (table ++ other) c = (table.has c || other.has c) :=
  List.any_append

/-- Letters in circles and squares: alphabetic, but symbols and not letters by category. -/
def circledRanges : RangeTable :=
  [(0x24B6, 0x24E9), (0x1F130, 0x1F149), (0x1F150, 0x1F169), (0x1F170, 0x1F189)]

/-- The vertical tilde: a letter by category, but reserved for the syntax of patterns. -/
def tildeRanges : RangeTable :=
  [(0x2E2F, 0x2E2F)]

/-- What scripts allow in names beside letters, marks, digits and connectors. -/
def nameExtraRanges : RangeTable :=
  [(0xB7, 0xB7), (0x387, 0x387), (0x1369, 0x1371), (0x1885, 0x1886), (0x19DA, 0x19DA),
   (0x200C, 0x200D), (0x2118, 0x2118), (0x212E, 0x212E), (0x309B, 0x309C), (0x30FB, 0x30FB),
   (0xFF65, 0xFF65)]

/-- Word characters that no name of a script holds. -/
def strayRanges : RangeTable :=
  enclosingMarkRanges ++ (circledRanges ++ tildeRanges)

set_option maxRecDepth 100000 in
theorem letterRanges_apart : letterRanges.apart (enclosingMarkRanges ++ circledRanges) = true := by
  decide

set_option maxRecDepth 100000 in
theorem markRanges_apart : markRanges.apart (circledRanges ++ tildeRanges) = true := by
  decide

theorem digitRanges_apart : digitRanges.apart strayRanges = true := by
  decide

theorem connectorRanges_apart : connectorRanges.apart strayRanges = true := by
  decide

theorem nameExtraRanges_apart : nameExtraRanges.apart strayRanges = true := by
  decide

theorem strayRanges_apart : RangeTable.apart [(0, 127)] strayRanges = true := by
  decide

end Unicode

namespace Script

open Unicode

/-! ## Both classes by their tables -/

theorem tildeRanges_has_iff {c : Char} : tildeRanges.has c = true ↔ c = '\u2e2f' := by
  simp only [RangeTable.has, tildeRanges, List.any_cons, List.any_nil, Bool.or_false,
    Bool.and_eq_true, decide_eq_true_eq, ← Char.toNat_inj, Char.reduceToNat]
  omega

theorem nameExtraRanges_has_iff {c : Char} :
    nameExtraRanges.has c = true ↔ c = '\u00b7' ∨ c = '\u0387' ∨ ('\u1369' ≤ c ∧ c ≤ '\u1371')
      ∨ c = '\u1885' ∨ c = '\u1886' ∨ c = '\u19da' ∨ c = '\u200c' ∨ c = '\u200d' ∨ c = '\u2118'
      ∨ c = '\u212e' ∨ c = '\u309b' ∨ c = '\u309c' ∨ c = '\u30fb' ∨ c = '\uff65' := by
  have hrange : ('\u1369' ≤ c ∧ c ≤ '\u1371') ↔ 0x1369 ≤ c.toNat ∧ c.toNat ≤ 0x1371 := Iff.rfl
  simp only [RangeTable.has, nameExtraRanges, List.any_cons, List.any_nil, Bool.or_false,
    Bool.or_eq_true, Bool.and_eq_true, decide_eq_true_eq, hrange, ← Char.toNat_inj,
    Char.reduceToNat]
  omega

theorem circledRanges_has_iff {c : Char} :
    circledRanges.has c = true ↔ ('\u24b6' ≤ c ∧ c ≤ '\u24e9')
      ∨ (0x1F130 ≤ c.toNat ∧ c.toNat ≤ 0x1F149) ∨ (0x1F150 ≤ c.toNat ∧ c.toNat ≤ 0x1F169)
      ∨ (0x1F170 ≤ c.toNat ∧ c.toNat ≤ 0x1F189) := by
  have hrange : ('\u24b6' ≤ c ∧ c ≤ '\u24e9') ↔ 0x24B6 ≤ c.toNat ∧ c.toNat ≤ 0x24E9 := Iff.rfl
  simp only [RangeTable.has, circledRanges, List.any_cons, List.any_nil, Bool.or_false,
    Bool.or_eq_true, Bool.and_eq_true, decide_eq_true_eq, hrange]

theorem isNamePart_iff {c : Char} (h : 128 ≤ c.toNat) :
    isNamePart c = true ↔ (letterRanges.has c = true ∧ tildeRanges.has c = false)
      ∨ (markRanges.has c = true ∧ enclosingMarkRanges.has c = false) ∨ digitRanges.has c = true
      ∨ connectorRanges.has c = true ∨ nameExtraRanges.has c = true := by
  have hlt : ¬c.toNat < 128 := by omega
  have htilde : tildeRanges.has c = false ↔ c ≠ '\u2e2f' := by
    rw [← Bool.not_eq_true, tildeRanges_has_iff]
  simp only [isNamePart, isNameStart, hlt, if_false, Bool.or_eq_true, Bool.and_eq_true,
    Bool.not_eq_true', bne_iff_ne, beq_iff_eq, decide_eq_true_eq, htilde, nameExtraRanges_has_iff]
  grind

theorem isWordChar_iff {c : Char} (h : 128 ≤ c.toNat) :
    Shim.isWordChar c = true ↔ letterRanges.has c = true ∨ markRanges.has c = true
      ∨ digitRanges.has c = true ∨ connectorRanges.has c = true ∨ c = '\u200c' ∨ c = '\u200d'
      ∨ circledRanges.has c = true := by
  have hlt : ¬c.toNat < 128 := by omega
  simp only [Shim.isWordChar, hlt, if_false, Bool.or_eq_true, Bool.and_eq_true, beq_iff_eq,
    decide_eq_true_eq, circledRanges_has_iff]
  grind

/-! ## Where they differ -/

theorem isNamePart_of_isWordChar_of_lt {c : Char} (hlt : c.toNat < 128)
    (h : Shim.isWordChar c = true) : isNamePart c = true := by
  simp only [Shim.isWordChar, isNamePart, isNameStart, hlt, if_true, Text.isAlphanum_iff,
    Text.isDigit, Bool.or_eq_true, Bool.and_eq_true, decide_eq_true_eq, beq_iff_eq] at h ⊢
  rcases h with ((hupper | hlower) | hdigit) | hline
  · exact .inl (.inl (.inl (.inr hupper)))
  · exact .inl (.inl (.inl (.inl hlower)))
  · exact .inr hdigit
  · exact .inl (.inr hline)

/-- No part of a name is stray: a stray character is in none of the tables that names are made of,
but in those that are taken out of them. -/
theorem strayRanges_has_of_isNamePart {c : Char} (h : isNamePart c = true) :
    strayRanges.has c = false := by
  refine Bool.eq_false_iff.mpr fun hstray => ?_
  have hascii := RangeTable.has_eq_false_of_apart strayRanges_apart hstray
  have hge : 128 ≤ c.toNat := by
    simp only [RangeTable.has, List.any_cons, List.any_nil, Bool.or_false, Bool.and_eq_false_iff,
      decide_eq_false_iff_not] at hascii
    omega
  have hparts := hstray
  simp only [strayRanges, RangeTable.has_append, Bool.or_eq_true] at hparts
  rcases (isNamePart_iff hge).mp h with
    ⟨hletter, htilde⟩ | ⟨hmark, henclosing⟩ | hdigit | hconnector | hextra
  · have hother : (enclosingMarkRanges ++ circledRanges : RangeTable).has c = true := by
      simpa [RangeTable.has_append, htilde] using hparts
    simp [RangeTable.has_eq_false_of_apart letterRanges_apart hother] at hletter
  · have hother : (circledRanges ++ tildeRanges : RangeTable).has c = true := by
      simpa [RangeTable.has_append, henclosing] using hparts
    simp [RangeTable.has_eq_false_of_apart markRanges_apart hother] at hmark
  · simp [RangeTable.has_eq_false_of_apart digitRanges_apart hstray] at hdigit
  · simp [RangeTable.has_eq_false_of_apart connectorRanges_apart hstray] at hconnector
  · simp [RangeTable.has_eq_false_of_apart nameExtraRanges_apart hstray] at hextra

/-- **The stray characters are the whole difference.** -/
theorem isNamePart_iff_of_isWordChar {c : Char} (h : Shim.isWordChar c = true) :
    isNamePart c = true ↔ strayRanges.has c = false := by
  refine ⟨strayRanges_has_of_isNamePart, fun hstray => ?_⟩
  by_cases hlt : c.toNat < 128
  · exact isNamePart_of_isWordChar_of_lt hlt h
  have hge : 128 ≤ c.toNat := by omega
  simp only [strayRanges, RangeTable.has_append, Bool.or_eq_false_iff] at hstray
  rw [isNamePart_iff hge, nameExtraRanges_has_iff]
  rcases (isWordChar_iff hge).mp h with hletter | hmark | hdigit | hconnector | rfl | rfl | hcircled
  · exact .inl ⟨hletter, hstray.2.2⟩
  · exact .inr (.inl ⟨hmark, hstray.1⟩)
  · exact .inr (.inr (.inl hdigit))
  · exact .inr (.inr (.inr (.inl hconnector)))
  · simp
  · simp
  · exact absurd hcircled (by simp [hstray.2.1])

end Script

end AmdModules
