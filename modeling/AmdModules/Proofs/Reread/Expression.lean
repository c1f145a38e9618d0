import AmdModules.Proofs.Layout.Expression
import AmdModules.Proofs.Reread.Function

/-!
# Expressions of a filled text

Nothing is forgiven in the text, so an operand that is missing there refuses it. Whether an arrow
may start is a comparison of two places, and both of them move.
-/

set_option autoImplicit false

namespace AmdModules.Script.Parser

open Text Yields Mirrors
open Filling (AlikeAll)

variable {text : List Char} {f : Filling text} {g g' : Grammar} {F : State → Prop} {Γ : List Node}
  {start start' : Nat}

theorem missing_never (c : Context) (s t : State) (n : Node) (hc : c.forgiving = false) :
    missing c s ≠ .done n t :=
  forgive_never hc n

/-- In front of an operator none is missing either. -/
theorem missingInFront_never (c : Context) (s t : State) (n : Node) (hc : c.forgiving = false) :
    (do
      match binaryOperator? (← context) (← token) with
      | some _ => missing
      | none => refuse : Parser Node) c s ≠ .done n t := by
  intro hrun
  obtain ⟨c', s₁, hcontext, hrun⟩ := bind_done hrun
  obtain ⟨token, s₂, htoken, hrun⟩ := bind_done hrun
  cases hoperator : binaryOperator? c' token with
  | some operator =>
    rw [hoperator] at hrun
    exact missing_never _ _ _ _ hc hrun
  | none =>
    rw [hoperator] at hrun
    exact refuse_ne_done c hrun

/-! ## Operands -/

theorem parenthesizedFrom_retraces {items items' : List Node} (hitems : f.AlikeAll items items')
    (h : Within items Γ) :
    Retraces f F Γ (parenthesizedFrom start items) (parenthesizedFrom start' items') := by
  unfold parenthesizedFrom
  rw [hitems.any_kind (· == .spread)]
  refine .ite .refuse ?_
  rcases items with _ | ⟨first, _ | ⟨second, others⟩⟩
  · exact .refuse
  · obtain ⟨first', ns', rfl, hfirst, hns⟩ := hitems.of_cons
    obtain rfl := hns.of_nil
    exact .node nofun (.singleton hfirst) h
  · obtain ⟨first', ns', rfl, hfirst, hns⟩ := hitems.of_cons
    obtain ⟨second', others', rfl, -⟩ := hns.of_cons
    exact .node nofun (.singleton (.mk (by nofun) _ _ hitems)) (.mk rfl (by grind))

/-- Parameters of an arrow that were read as arguments. -/
theorem arrowParameters_retraces (hg : g.Rereads f g') {async : Bool} {items items' : List Node}
    (hitems : f.AlikeAll items items') (h : Within items Γ) :
    Retraces f F Γ (match asParameters items with
        | some items => arrowFrom g async start items
        | none => refuse)
      (match asParameters items' with
        | some items => arrowFrom g' async start' items
        | none => refuse) := by
  have hparameters := hitems.asParameters
  cases hcase : asParameters items with
  | none => exact .refuse
  | some parameters =>
    rw [hcase] at hparameters
    cases hcase' : asParameters items' with
    | none =>
      rw [hcase'] at hparameters
      cases hparameters
    | some parameters' =>
      rw [hcase'] at hparameters
      cases hparameters with
      | some hparameters =>
        exact arrowFrom_retraces hg hparameters (.trans (elementsAsPatterns_within items hcase) h)

theorem parenthesized_rereads (hg : g.Rereads f g') (mayBeArrow : Bool) :
    Rereads f (parenthesized g none mayBeArrow) (parenthesized g' none mayBeArrow) := by
  refine .position fun start start' => ?_
  refine .step (allowingIn_rereads (arguments_rereads hg)) fun items items' hitems => ?_
  refine .readIf (.isMark _) ?_ (parenthesizedFrom_retraces hitems (by grind))
  refine .token fun kind span span' new _ => .ite .refuse (.step advance_rereads fun _ _ _ => ?_)
  exact arrowParameters_retraces hg hitems (by grind)

/-- Behind the name `async`: an arrow function or a call. -/
theorem asyncParenthesized_retraces (hg : g.Rereads f g') (mayBeArrow : Bool) {name name' : Node}
    (hname : f.Alike name name') (hasync : name.kind = .identifier "async")
    (h : Within [name] Γ) :
    Retraces f F Γ (parenthesized g (some name) mayBeArrow)
      (parenthesized g' (some name') mayBeArrow) := by
  have hdefine : name.kind ≠ .identifier "define" := by
    rw [hasync]
    decide
  refine .pureBind (.step (allowingIn_rereads (arguments_rereads hg)) fun items items' hitems => ?_)
  refine .readIf (.isMark _) ?_ ?_
  · refine .token fun kind span span' new _ => .ite .refuse (.step advance_rereads fun _ _ _ => ?_)
    exact arrowParameters_retraces hg hitems (by grind)
  · intro c s t n _ hs _ _ hrun
    cases hrun
    refine ⟨.stay hs ?_, fun c' s' _ hs' _ _ => ⟨_, s', rfl, ?_, hs'⟩⟩
    · rw [nodes_node, sites_call, if_neg hdefine, List.nil_append]
      exact (by grind : Within (name :: items) (nodes items ++ Γ)).sites
    · change f.Alike _ _
      rw [Filling.Alike, Node.plain_mk, mirror_call, if_neg hdefine]
      exact congrArg _ (AlikeAll.cons hname hitems)

theorem identifierOrArrow_rereads (hg : g.Rereads f g') (mayBeArrow : Bool) :
    Rereads f (identifierOrArrow g mayBeArrow) (identifierOrArrow g' mayBeArrow) := by
  refine .position fun start start' => .context fun c arrow forgiving _ _ => ?_
  refine .step (identifier_rereads _ _) fun name name' hname => ?_
  refine .look fun kind span span' new _ _ => ?_
  dsimp only
  rw [hname.kind]
  have harrow {F : State → Prop} {Γ : List Node} (h : Within [name] Γ) :
      Retraces f F Γ
        (if (mayBeArrow && !new && kind == .mark "=>") = true then
          advance >>= fun _ => arrowFrom g false start [name] else pure name)
        (if (mayBeArrow && !new && kind == .mark "=>") = true then
          advance >>= fun _ => arrowFrom g' false start' [name'] else pure name') := by
    refine .ite (.step advance_rereads fun _ _ _ => ?_) (.pure hname h)
    exact arrowFrom_retraces hg (.singleton hname) (by grind)
  have hitem {F : State → Prop} {Γ : List Node} :
      Retraces f F Γ
        (do
          let item ← bindingIdentifier false
          expect "=>"
          arrowFrom g true start [item])
        (do
          let item ← bindingIdentifier false
          expect "=>"
          arrowFrom g' true start' [item]) := by
    refine .step (bindingIdentifier_rereads _) fun item item' hitem => ?_
    exact .step (expect_rereads _) fun _ _ _ => arrowFrom_retraces hg (.singleton hitem) (by grind)
  refine .read .namesSomething fun b => .ite ?_ (harrow (by grind))
  by_cases hword : kind.looksAhead = true
  · refine .peek (fun s hs => by rw [hs]; exact hword) fun kind₂ span₂ span₂' new₂ => ?_
    exact .ite (.pure hname (by grind)) hitem
  · -- behind any other token nothing is looked for
    have hof : (kind == .word "of") = false := by
      rw [beq_eq_false_iff_ne]
      rintro rfl
      exact hword rfl
    refine .peekAny fun _ _ => ?_
    simp only [hof, Bool.and_false, Bool.false_and, Bool.false_eq_true, ↓reduceIte]
    exact hitem

theorem primaryWord_retraces (hg : g.Rereads f g') (word : String) (mayBeArrow : Bool) :
    Retraces f (·.reading.token.kind = .word word) Γ (primaryWord g word mayBeArrow)
      (primaryWord g' word mayBeArrow) := by
  refine .position fun start start' => ?_
  split
  · exact (leaf_rereads (by nofun)).frame
  · exact (leaf_rereads (by nofun)).frame
  · exact (leaf_rereads (by nofun)).frame
  · exact (leaf_rereads (by nofun)).frame
  · exact (functionExpression_rereads hg _).frame
  · exact classFrom_retraces hg .nil (.nil _)
  · exact (identifierOrArrow_rereads hg _).frame
  · refine .peek (fun s hs => by rw [hs]; rfl) fun kind span span' new => ?_
    refine .ite ?_ (.ite ?_ ?_)
    · exact .step advance_rereads fun _ _ _ => (functionExpression_rereads hg _).frame
    · change Retraces f _ Γ
        (token >>= fun t => advance >>= fun _ =>
          parenthesized g (some (.mk (.identifier "async") t.span [])) mayBeArrow)
        (token >>= fun t => advance >>= fun _ =>
          parenthesized g' (some (.mk (.identifier "async") t.span [])) mayBeArrow)
      refine .token fun kind span span' new _ => .step advance_rereads fun _ _ _ => ?_
      exact asyncParenthesized_retraces hg _ (.mk (by nofun) _ _ .nil) rfl (.mk rfl (.nil _))
    · refine .token fun kind span span' new _ => .readIf .namesSomething ?_ .refuse
      exact (identifierOrArrow_rereads hg _).frame

/-- Places that are compared stay the same or stay different. -/
theorem arrowAt_eq {start start' : Nat} {arrow arrow' : Option Nat} (h : f.Moved start start')
    (harrow : Option.Rel f.Moved arrow arrow') :
    (arrow' == some start') = (arrow == some start) := by
  cases harrow with
  | none => rfl
  | some hmoved =>
    rw [Bool.eq_iff_iff, beq_iff_eq, beq_iff_eq, Option.some_inj, Option.some_inj]
    exact hmoved.eq_iff h

theorem primary_rereads (hg : g.Rereads f g') : Rereads f (primary g) (primary g') := by
  refine .look fun kind span span' new hstart _ => ?_
  refine .context fun c arrow forgiving _ harrow => ?_
  dsimp only
  rw [arrowAt_eq hstart harrow]
  split
  · exact .conseq (primaryWord_retraces hg _ _) (fun s _ hs => by rw [hs]) (.refl _)
  · exact (leaf_rereads (by nofun)).frame
  · exact (leaf_rereads (by nofun)).frame
  · exact (arrayLiteral_rereads hg).frame
  · exact (objectLiteral_rereads hg).frame
  · exact (parenthesized_rereads hg _).frame
  · exact .conseq (template_retraces hg _) (fun s _ hs => by rw [hs]) (.refl _)
  · exact .conseq regexp_retraces (fun s _ hs => by rw [hs]; exact .inl rfl) (.refl _)
  · exact .conseq regexp_retraces (fun s _ hs => by rw [hs]; exact .inr rfl) (.refl _)
  · exact privateName_rereads.frame
  · -- no dialect with markup is read here
    refine .context fun c arrow forgiving hc _ => ?_
    rw [hc.markup]
    exact .refuse
  · refine .step (decorators_rereads hg) fun marks marks' hmarks => .readIf (.isWord _) ?_ .refuse
    exact classFrom_retraces hg hmarks (by grind)
  · exact .refuse

section

variable {n n' : Node}

theorem isArrow_eq (h : f.Alike n n') : isArrow n' = isArrow n := by
  rw [isArrow, h.kind, isArrow]

theorem isOptional_eq (h : f.Alike n n') : isOptional n' = isOptional n := by
  rw [isOptional, h.kind, isOptional]

theorem constructsOptional_eq (h : f.Alike n n') :
    constructsOptional n' = constructsOptional n := by
  unfold constructsOptional
  rw [isOptional_eq h, h.kind]
  congr 1
  by_cases hcall : n.kind = .call
  · rw [hcall]
  · have hparts := h.parts hcall
    cases hfirst : n.parts with
    | nil =>
      rw [hfirst] at hparts
      rw [hparts.of_nil]
    | cons part parts =>
      rw [hfirst] at hparts
      obtain ⟨part', parts', heq, hpart, -⟩ := hparts.of_cons
      rw [heq]
      generalize n.kind = kind
      cases kind
      case member | computedMember => exact isOptional_eq hpart
      all_goals rfl

end

/-- A word that means nothing without what follows it. -/
theorem leafSubscripts_rereads (hg : g.Rereads f g') (calls : Bool) {kind : Kind}
    (hkind : kind.isLandmark = false) :
    Rereads f (leaf kind >>= subscripts g calls true g.limit)
      (leaf kind >>= subscripts g' calls true g'.limit) := by
  refine .bindEnds (leaf_rereads ?_) (leaf_lays hkind) fun n n' hn =>
    subscripts_retraces hg hg.limit hn (by grind)
  rintro rfl
  exact absurd hkind (by decide)

theorem constructed_rereads (hg : g.Rereads f g') :
    Rereads f (constructed g) (constructed g') := by
  -- a node that is no name goes on with what follows it
  have hnode {kind : Kind} {start start' : Nat} {Γ parts parts' : List Node} (hkind : kind ≠ .call)
      (hleaf : kind.isLeaf = false) (hparts : f.AlikeAll parts parts') (h : Within parts Γ) :
      Retraces f (fun _ => True) Γ
        (node kind start parts >>= subscripts g false true g.limit)
        (node kind start' parts' >>= subscripts g' false true g'.limit) := by
    refine .bindPost (R := fun n s => ends text s n) (.node hkind hparts h)
      (fun c s t n _ _ _ hrun => ?_) fun n n' hn => subscripts_retraces hg hg.limit hn (by grind)
    cases hrun
    exact ends_mk hleaf _
  refine .position fun start start' => .eatIf (eatWord_rereads _) (.eatIf (eat_rereads _) ?_ ?_)
    (.readIf (.isWord _) (leafSubscripts_rereads hg _ rfl).frame
      (.readIf (.isWord _) (leafSubscripts_rereads hg _ rfl).frame ?_))
  · exact .eatIf (eatWord_rereads _) (hnode nofun rfl .nil (.nil _)) .refuse
  · refine .step hg.constructed fun callee callee' hcallee => ?_
    rw [isArrow_eq hcallee, constructsOptional_eq hcallee]
    refine .ite (.pure hcallee (by grind)) (.ite .refuse (.readIf (.isMark _) ?_ ?_))
    · refine .step (arguments_rereads hg) fun items items' hitems => ?_
      exact hnode nofun rfl (.cons hcallee hitems) (by grind)
    · exact .node nofun (.singleton hcallee) (by grind)
  · refine .bindEnds (primary_rereads hg) (primary_lays hg.lays) fun operand operand' hoperand => ?_
    rw [isArrow_eq hoperand]
    exact .ite (.pure hoperand (by grind)) (subscripts_retraces hg hg.limit hoperand (by grind))

theorem leftHandSide_rereads (hg : g.Rereads f g') :
    Rereads f (leftHandSide g) (leftHandSide g') := by
  refine .position fun start start' =>
    .readIf (.isWord _) (leafSubscripts_rereads hg _ rfl).frame
      (.readIf (.isWord _) (leafSubscripts_rereads hg _ rfl).frame ?_)
  refine .bindEnds (constructed_rereads hg) (constructed_lays hg.lays)
    fun callee callee' hcallee => ?_
  rw [isArrow_eq hcallee]
  refine .ite (.pure hcallee (by grind)) (.readIf (.isMark _) ?_ (.pure hcallee (by grind)))
  change Retraces f _ _ (arguments g >>= fun items =>
      node (callKind callee items).1 start (callKind callee items).2
        >>= subscripts g true true g.limit)
    (arguments g' >>= fun items =>
      node (callKind callee' items).1 start' (callKind callee' items).2
        >>= subscripts g' true true g'.limit)
  rw [← bind_assoc, ← bind_assoc]
  refine .bindPost (R := fun n s => ends text s n) (called_retraces hg hcallee (by grind))
    (fun c s t n _ _ _ hrun => ?_) fun n n' hn => subscripts_retraces hg hg.limit hn (by grind)
  obtain ⟨items, u, -, hnode⟩ := bind_done hrun
  cases hnode
  refine ends_mk ?_ _
  unfold callKind
  split <;> rfl

/-! ## Operators -/

theorem awaitExpression_rereads (hg : g.Rereads f g') :
    Rereads f (awaitExpression g) (awaitExpression g') := by
  refine .position fun start start' => .step advance_rereads fun _ _ _ => ?_
  refine .token fun kind span span' new _ => .context fun c arrow forgiving _ _ => ?_
  refine .ite .refuse (.ite (.state fun s s' hmodule => ?_) ?_)
  · rw [hmodule]
    exact .ite .refuse (.node nofun .nil (.nil _))
  · exact .step hg.unary fun operand operand' hoperand =>
      .node nofun (.singleton hoperand) (by grind)

theorem unary_rereads (hg : g.Rereads f g') : Rereads f (unary g) (unary g') := by
  refine .token fun kind span span' new _ => ?_
  dsimp only
  rw [show updateOperator? ⟨kind, span', new⟩ = updateOperator? ⟨kind, span, new⟩ from rfl,
    show prefixOperator? ⟨kind, span', new⟩ = prefixOperator? ⟨kind, span, new⟩ from rfl]
  split
  · refine .step advance_rereads fun _ _ _ => .step hg.unary fun operand operand' hoperand => ?_
    exact .form nofun (.singleton hoperand) (by grind)
  · refine .step advance_rereads fun _ _ _ => ?_
    refine .bind (.orElse hg.unary.frame missing_never) fun operand operand' hoperand => ?_
    exact .form nofun (.singleton hoperand) (by grind)
  · refine .ite (awaitExpression_rereads hg) ?_
    refine .step (leftHandSide_rereads hg) fun operand operand' hoperand => ?_
    refine .token fun kind₂ span₂ span₂' new₂ _ => ?_
    dsimp only
    rw [isArrow_eq hoperand,
      show updateOperator? ⟨kind₂, span₂', new₂⟩ = updateOperator? ⟨kind₂, span₂, new₂⟩ from rfl]
    refine .ite (.pure hoperand (by grind)) ?_
    split
    · exact .step advance_rereads fun _ _ _ => .node nofun (.singleton hoperand) (by grind)
    · exact .pure hoperand (by grind)

theorem operators_retraces (hg : g.Rereads f g') {floor : Nat} {left left' : Node}
    (hleft : f.Alike left left') (h : Within [left] Γ) :
    Retraces f F Γ (operators g floor left) (operators g' floor left') := by
  refine .context fun c arrow forgiving _ _ => .token fun kind span span' new _ => ?_
  rw [show binaryOperator? { c with arrowAt := arrow, forgiving := forgiving } ⟨kind, span', new⟩
    = binaryOperator? c ⟨kind, span, new⟩ from rfl]
  split
  · exact .pure hleft h
  · refine .ite (.pure hleft h) ?_
    dsimp only
    rw [hleft.kind]
    refine .step advance_rereads fun _ _ _ => .ite .refuse ?_
    refine .step hg.unary fun operand operand' hoperand => ?_
    refine .bind (hg.operators _ hoperand (by grind)) fun right right' hright => ?_
    exact hg.operators _ (.mk (by nofun) _ _ (.cons hleft (.singleton hright)))
      (.mk rfl (by grind))

theorem binary_rereads (hg : g.Rereads f g') : Rereads f (binary g) (binary g') := by
  refine .bind (.orElse hg.unary.frame missingInFront_never) fun left left' hleft => ?_
  rw [isArrow_eq hleft]
  exact .ite (.pure hleft (by grind)) (hg.operators _ hleft (by grind))

theorem conditional_rereads (hg : g.Rereads f g') :
    Rereads f (conditional g) (conditional g') := by
  refine .position fun start start' => .step (binary_rereads hg) fun test test' htest => ?_
  rw [isArrow_eq htest]
  refine .ite (.pure htest (by grind)) (.eatIf (eat_rereads _) ?_ (.pure htest (by grind)))
  refine .step (allowingIn_rereads hg.assignment) fun yes yes' hyes => ?_
  refine .step (expect_rereads _) fun _ _ _ => .step hg.assignment fun no no' hno => ?_
  exact .node nofun (.cons htest (.cons hyes (.singleton hno))) (by grind)

theorem yieldExpression_rereads (hg : g.Rereads f g') :
    Rereads f (yieldExpression g) (yieldExpression g') := by
  refine .position fun start start' => .step advance_rereads fun _ _ _ => ?_
  refine .context fun c arrow forgiving _ _ => .ite .refuse (.token fun kind span span' new _ => ?_)
  refine .ite (.node nofun .nil (.nil _)) (.step (eat_rereads _) fun delegates delegates' h => ?_)
  obtain rfl : delegates' = delegates := h
  refine .step hg.assignment fun operand operand' hoperand => ?_
  exact .node nofun (.singleton hoperand) (by grind)

theorem assignedTo_alike (operator : String) {left left' : Node} (h : f.Alike left left') :
    Option.Rel f.Alike (assignedTo operator left) (assignedTo operator left') := by
  unfold assignedTo
  rw [h.kind]
  split
  · have htarget := h.asPattern .assigned
    cases hcase : asPattern .assigned left <;> cases hcase' : asPattern .assigned left' <;>
      rw [hcase, hcase'] at htarget <;> cases htarget
    · exact .none
    · rename_i target target' htarget
      simp only [Option.bind_eq_bind, Option.bind_some, htarget.kind]
      split
      · exact .some htarget
      · exact .none
  · split
    · exact .some h
    · exact .none

theorem assignment_rereads (hg : g.Rereads f g') : Rereads f (assignment g) (assignment g') := by
  refine .token fun kind span span' new hstart => .context fun c arrow forgiving _ _ => ?_
  have harrow (mayBeArrow : Bool) : Option.Rel f.Moved
      (if mayBeArrow = true then some span.start else none)
      (if mayBeArrow = true then some span'.start else none) := by
    cases mayBeArrow with
    | true => exact .some hstart
    | false => exact .none
  refine .ite (yieldExpression_rereads hg) ?_
  dsimp only
  refine .bind (.withinTwin ?_ ?_ (conditional_rereads hg).frame) fun left left' hleft => ?_
  · refine fun c hc => ⟨hc.markup, hc.forgiving, fun place hplace => ?_⟩
    obtain ⟨cs, hcs, -⟩ := hstart
    obtain ⟨-, hplace⟩ := Option.ite_none_right_eq_some.mp hplace
    cases hplace
    exact ⟨cs, hcs⟩
  · rintro c c' ⟨arrow, forgiving, rfl, -⟩
    exact ⟨_, forgiving, rfl, harrow _⟩
  · rw [hleft.kind]
    split
    · exact .pure hleft (by grind)
    · exact .pure hleft (by grind)
    · exact .pure hleft (by grind)
    · exact .pure hleft (by grind)
    · exact .pure hleft (by grind)
    · refine .token fun kind₂ span₂ span₂' new₂ _ => ?_
      rw [show assignmentOperator? ⟨kind₂, span₂', new₂⟩ = assignmentOperator? ⟨kind₂, span₂, new₂⟩
        from rfl]
      split
      · exact .pure hleft (by grind)
      · rename_i operator _
        have htarget := assignedTo_alike operator hleft
        cases hcase : assignedTo operator left <;> cases hcase' : assignedTo operator left' <;>
          rw [hcase, hcase'] at htarget <;> cases htarget
        · exact .refuse
        · rename_i target target' htarget
          have hwithin := assignedTo_within hcase
          refine .step advance_rereads fun _ _ _ => ?_
          refine .step hg.assignment fun right right' hright => ?_
          exact .node nofun (.cons htarget (.singleton hright)) (by grind)

/-! ## At a comma -/

theorem unary_shuns (g : Grammar) : Shuns (unary g) := by
  refine .token fun span new => .bind (p := leftHandSide g) ?_
  refine .position fun _ => .notWord (.notWord (.bind ?_))
  refine .position fun _ => .notEaten (.notWord (.notWord (.bind ?_)))
  exact .token fun span new => .read .context fun c => .refuse

theorem assignment_shuns (hg : g.Rereads f g') : Shuns (assignment g) := by
  refine .token fun span new => .read .context fun c => ?_
  have hyield : (c.inGenerator && TokenKind.mark "," == TokenKind.word "yield") = false := by
    rw [show (TokenKind.mark "," == TokenKind.word "yield") = false from rfl, Bool.and_false]
  dsimp only
  rw [hyield]
  refine .bind (.within (fun _ => rfl) (.position fun start => .bind (.bind ?_)))
  exact .orElse hg.shunsUnary missingInFront_never

end AmdModules.Script.Parser
