import AmdModules.Proofs.Reread.Arguments
import AmdModules.Script.Program

/-!
# Literals among arguments

A string or an array in front of a comma or a closing bracket is an argument of its own: on its way
through the grammar nothing asks for more (`element_literal`). Three unrollings are enough for that,
and with fewer nothing is read (`string_of_element`).
-/

set_option autoImplicit false

namespace AmdModules.Script

/-- In front of such a token an argument or an element ends. -/
def TokenKind.Closes (kind : TokenKind) : Prop :=
  kind = .mark "," ∨ kind = .mark ")" ∨ kind = .mark "]"

/-- A literal starts with such a token. -/
def TokenKind.Opens (kind : TokenKind) : Prop :=
  (∃ value, kind = .string value) ∨ kind = .mark "["

/-- What can be put into a text. -/
def Kind.IsLiteral (kind : Kind) : Prop :=
  (∃ value, kind = .string value) ∨ kind = .array

namespace Parser

variable {g : Grammar} {c : Context} {s t : State} {n : Node}

theorem isArrow_literal (hn : n.kind.IsLiteral) : isArrow n = false := by
  rcases hn with ⟨value, hkind⟩ | hkind <;> simp [isArrow, hkind]

theorem isIncomplete_literal (hn : n.kind.IsLiteral) : isIncomplete n = false := by
  rcases hn with ⟨value, hkind⟩ | hkind <;> simp [isIncomplete, hkind]

theorem isWord_opens {w : String} (hs : s.reading.token.kind.Opens) :
    isWord w c s = .done false s := by
  rcases hs with ⟨value, hkind⟩ | hkind <;> simp [isWord, hkind]

theorem isMark_closes {m : String} (ht : t.reading.token.kind.Closes)
    (hm : m ≠ "," ∧ m ≠ ")" ∧ m ≠ "]") : isMark m c t = .done false t := by
  rcases ht with hkind | hkind | hkind <;> simp [isMark, hkind, hm.1.symm, hm.2.1.symm, hm.2.2.symm]

/-! ## Up to an operand -/

theorem subscript_closed (calls brackets : Bool) (hn : n.kind.IsLiteral)
    (ht : t.reading.token.kind.Closes) : subscript g calls brackets n c t = .done none t := by
  have hdot : eat "." c t = .done false t := bind_eq_done (isMark_closes ht (by decide)) rfl
  simp only [subscript, Bind.bind, andThen, isMark_closes ht (m := "?.") (by decide),
    isMark_closes ht (m := "[") (by decide), isMark_closes ht (m := "(") (by decide),
    isMark_closes ht (m := "`") (by decide), hdot, isIncomplete_literal hn, Bool.and_false,
    Bool.false_eq_true, ↓reduceIte]
  rfl

theorem subscripts_closed (calls brackets : Bool) (hn : n.kind.IsLiteral)
    (ht : t.reading.token.kind.Closes) (limit : Nat) :
    subscripts g calls brackets (limit + 1) n c t = .done n t :=
  bind_eq_done (subscript_closed calls brackets hn ht) rfl

theorem constructed_literal (hs : s.reading.token.kind.Opens) (hn : n.kind.IsLiteral)
    (hrun : primary g c s = .done n t) :
    constructed g c s = subscripts g false true g.limit n c t := by
  have hnew : eatWord "new" c s = .done false s := bind_eq_done (isWord_opens hs) rfl
  have hrest : (do
      let operand ← primary g
      if isArrow operand then return operand
      else subscripts g false true g.limit operand : Parser Node) c s
        = subscripts g false true g.limit n c t := by
    simp [Bind.bind, andThen, hrun, isArrow_literal hn]
  simp only [constructed, Bind.bind, andThen, position, hnew, isWord_opens hs,
    Bool.false_eq_true, ↓reduceIte]
  exact hrest

theorem leftHandSide_literal (hs : s.reading.token.kind.Opens) (hn : n.kind.IsLiteral)
    (ht : t.reading.token.kind.Closes) (hrun : constructed g c s = .done n t) :
    leftHandSide g c s = .done n t := by
  simp [leftHandSide, Bind.bind, andThen, position, isWord_opens hs, hrun, isArrow_literal hn,
    isMark_closes ht (m := "(") (by decide)]
  rfl

theorem unary_literal (hs : s.reading.token.kind.Opens)
    (ht : t.reading.token.kind.Closes) (hrun : leftHandSide g c s = .done n t) :
    unary g c s = .done n t := by
  have hupdate : updateOperator? t.reading.token = none := by
    rcases ht with hkind | hkind | hkind <;> simp [updateOperator?, hkind]
  obtain ⟨hfront, hfirst, hawait⟩ : prefixOperator? s.reading.token = none
      ∧ updateOperator? s.reading.token = none
      ∧ (s.reading.token.kind == .word "await") = false := by
    rcases hs with ⟨value, hkind⟩ | hkind <;> simp [prefixOperator?, updateOperator?, hkind]
  simp only [unary, Bind.bind, andThen, token, hfirst, hfront, hawait, hrun, hupdate,
    Bool.false_eq_true, ↓reduceIte]
  split <;> rfl

/-! ## Up to an expression -/

theorem operators_closed (floor : Nat) (ht : t.reading.token.kind.Closes) :
    operators g floor n c t = .done n t := by
  have hnone : binaryOperator? c t.reading.token = none := by
    rcases ht with hkind | hkind | hkind <;> simp [binaryOperator?, hkind, precedence?]
  simp [operators, Bind.bind, andThen, context, token, hnone]
  rfl

theorem binary_literal (hn : n.kind.IsLiteral) (hunary : g.parse .unary c s = .done n t)
    (hoperators : g.parse (.operators 0 n) c t = .done n t) : binary g c s = .done n t := by
  simp [binary, orElse, Bind.bind, andThen, hunary, isArrow_literal hn, hoperators]

theorem conditional_literal (hn : n.kind.IsLiteral) (ht : t.reading.token.kind.Closes)
    (hrun : binary g c s = .done n t) : conditional g c s = .done n t := by
  have heat : eat "?" c t = .done false t :=
    bind_eq_done (isMark_closes ht (by decide)) rfl
  simp [conditional, Bind.bind, andThen, position, hrun, isArrow_literal hn, heat]
  rfl

theorem assignment_literal (hs : s.reading.token.kind.Opens) (hn : n.kind.IsLiteral)
    (ht : t.reading.token.kind.Closes) (hrun : ∀ c, conditional g c s = .done n t) :
    assignment g c s = .done n t := by
  have hyield : (s.reading.token.kind == .word "yield") = false := by
    rcases hs with ⟨value, hkind⟩ | hkind <;> simp [hkind]
  have hoperator : assignmentOperator? t.reading.token = none := by
    rcases ht with hkind | hkind | hkind <;> simp [assignmentOperator?, hkind]
  simp only [assignment, Bind.bind, andThen, token, context, hyield, Bool.and_false,
    Bool.false_eq_true, ↓reduceIte, within, hrun]
  rcases hn with ⟨value, hkind⟩ | hkind
  · simp only [hkind, andThen, token, hoperator]
    rfl
  · simp only [hkind, andThen, token, hoperator]
    rfl

/-- **A literal in front of such a token is an argument.** -/
theorem element_literal {limit : Nat} (hs : s.reading.token.kind.Opens) (hn : n.kind.IsLiteral)
    (ht : t.reading.token.kind.Closes)
    (hrun : ∀ c, primary (grammar (limit + 1)) c s = .done n t) :
    element (grammar (limit + 3)) c s = .done n t := by
  have hunary (c : Context) : (grammar (limit + 2)).parse .unary c s = .done n t := by
    refine unary_literal hs ht (leftHandSide_literal hs hn ht ?_)
    rw [constructed_literal hs hn (hrun c)]
    exact subscripts_closed false true hn ht limit
  have hexpression (c : Context) : (grammar (limit + 3)).parse .assignment c s = .done n t :=
    assignment_literal hs hn ht fun c =>
      conditional_literal hn ht (binary_literal hn (hunary c) (operators_closed 0 ht))
  have heat : eat "..." c s = .done false s := by
    refine eat_eq_false ?_
    rcases hs with ⟨value, hkind⟩ | hkind <;> simp [hkind]
  simp only [element, Bind.bind, andThen, position, heat, Bool.false_eq_true, ↓reduceIte,
    allowingIn, within, hexpression]

theorem primary_string {value : String} (hs : s.reading.token.kind = .string value) :
    primary g c s = .done (.mk (.string value) s.reading.token.span []) s.next := by
  simp only [primary, Bind.bind, andThen, token, context, hs]
  rfl

theorem element_string {value : String} {limit : Nat} (hs : s.reading.token.kind = .string value)
    (hnext : s.next.reading.token.kind.Closes) :
    element (grammar (limit + 3)) c s
      = .done (.mk (.string value) s.reading.token.span []) s.next :=
  element_literal (.inl ⟨value, hs⟩) (.inl ⟨value, rfl⟩) hnext fun _ => primary_string hs

/-! ## With fewer unrollings -/

/-- An operand that is not read. -/
theorem unary_exhausted (hs : s.reading.token.kind.Opens) (hrun : constructed g c s = .exhausted) :
    unary g c s = .exhausted := by
  have hoperand : leftHandSide g c s = .exhausted := by
    simp [leftHandSide, Bind.bind, andThen, position, isWord_opens hs, hrun]
  rcases hs with ⟨value, hkind⟩ | hkind <;>
    simp [unary, Bind.bind, andThen, token, updateOperator?, prefixOperator?, hkind, hoperand]

theorem assignment_exhausted (hs : s.reading.token.kind.Opens)
    (hunary : ∀ c, g.parse .unary c s = .exhausted) : assignment g c s = .exhausted := by
  have htest (c : Context) : conditional g c s = .exhausted := by
    simp [conditional, binary, orElse, Bind.bind, andThen, position, hunary]
  have hyield : (s.reading.token.kind == .word "yield") = false := by
    rcases hs with ⟨value, hkind⟩ | hkind <;> simp [hkind]
  simp only [assignment, Bind.bind, andThen, token, context, hyield, Bool.and_false,
    Bool.false_eq_true, ↓reduceIte, within, htest]

/-- A string in front of such a token is an argument, or there are too few unrollings. -/
theorem string_of_element {value : String} (hs : s.reading.token.kind = .string value)
    (hnext : s.next.reading.token.kind.Closes) {limit : Nat}
    (hrun : element (grammar limit) c s = .done n t) :
    n = .mk (.string value) s.reading.token.span [] ∧ t = s.next := by
  have hopens : s.reading.token.kind.Opens := .inl ⟨value, hs⟩
  have hgoal : (grammar limit).parse .assignment { c with allowIn := true } s = .done n t := by
    have heat : eat "..." c s = .done false s := eat_eq_false (by simp [hs])
    simp only [element, Bind.bind, andThen, position, heat, Bool.false_eq_true, ↓reduceIte] at hrun
    exact hrun
  rcases limit with _ | _ | _ | limit
  · cases hgoal
  · have hnone : assignment (grammar 0) { c with allowIn := true } s = .exhausted :=
      assignment_exhausted hopens fun _ => rfl
    cases hnone.symm.trans hgoal
  · have hnone : assignment (grammar 1) { c with allowIn := true } s = .exhausted :=
      assignment_exhausted hopens fun c => unary_exhausted hopens <| by
        rw [constructed_literal hopens (.inl ⟨value, rfl⟩) (primary_string hs)]
        rfl
    cases hnone.symm.trans hgoal
  · rw [element_string hs hnext] at hrun
    cases hrun
    exact ⟨rfl, rfl⟩

end Parser

end AmdModules.Script
