import AmdModules.Proofs.Layout.Expression
import AmdModules.Script.Parser.Module

/-!
# Statements

A `use strict` statement covers the text from where the statement starts to the end of the last
token read. Whatever was read in between is not in the tree: the decorators in front of it are
dropped, and the string has no parts. So the stretch is apart from all places that are held
(`Tracks.statementNode`); the rules for statements start counting where the statement does.
-/

set_option autoImplicit false

namespace AmdModules.Script.Parser

open Text Yields
open Loader (Call)
open Normalize (isUseStrict)

variable {text : List Char} {g : Grammar} {lo start : Nat} {F : State → Prop} {Γ Γ₀ : List Node}

/-! ## Expression statements -/

/-- A name or string ends before the place the parser stands at. -/
def Held (value : Node) (s : State) : Prop :=
  value.kind.isLeaf = true → value.span.stop ≤ s.lastEnd

theorem Held.of_ends {value : Node} {s s' : State} (h : ends text s value)
    (hreach : Reaches text s s') : Held value s' :=
  fun hleaf => (h hleaf).2 ▸ hreach.le

theorem isLeaf_of_isUseStrict {span : Span} {value : Node}
    (h : isUseStrict (.mk .expressionStatement span [value]) = true) :
    value.kind.isLeaf = true := by
  have hkind : value.kind = .string "use strict" := by simpa [isUseStrict] using h
  rw [hkind]
  rfl

/-- An expression statement is held in place of its expression. If it is a `use strict` it asks for
the stretch it covers. -/
theorem owned_statement {s : State} {span : Span} {value : Node} (h : Owned text lo s [value])
    (hstrict : isUseStrict (.mk .expressionStatement span [value]) = true →
      landmarks [value] = [] ∧ lo ≤ span.start ∧ span.start ≤ span.stop ∧ span.stop ≤ s.lastEnd) :
    Owned text lo s [.mk .expressionStatement span [value]] := by
  have hsplit : landmarks [.mk .expressionStatement span [value]]
      = .mk .expressionStatement span [value] :: landmarks [value] := by
    rw [landmarks_mk]
    simp [Kind.isLandmark]
  refine ⟨h.le, fun n hn => ?_, ?_, ?_⟩
  · rw [hsplit] at hn
    rcases List.mem_cons.mp hn with rfl | hn
    · refine ⟨fun hcall => ?_, fun hcall => ?_, fun call hcall => ?_⟩
      · exact absurd hcall (by simp [Node.kind])
      · exact absurd hcall (by simp [Node.kind])
      · exact absurd hcall (by simp [Call.definition?, Call.ofNode?])
    · exact h.settled n hn
  · rw [hsplit, List.flatMap_cons]
    by_cases hs : isUseStrict (.mk .expressionStatement span [value]) = true
    · obtain ⟨hnone, hlo, hle, hhi⟩ := hstrict hs
      rw [hnone, places, if_pos hs]
      exact .singleton hlo hle hhi
    · rw [places, if_neg hs]
      simpa [Call.definition?, Call.ofNode?] using h.spaced
  · rw [hsplit, List.map_cons, spots]
    exact h.spread.cons (by simp [Call.definition?, Call.ofNode?])
      (by simp [Call.definition?, Call.ofNode?])

/-- An expression statement covers what was read since it started. -/
theorem Tracks.statementNode {value : Node} (hend : start ≤ byteLength text)
    (hvalue : begins text start value) (h : Within [value] Γ) :
    Tracks text start (Held value) Γ (Parser.node .expressionStatement start [value])
      (Leaves text start []) := by
  intro c s hc hs hheld hΓ
  refine ⟨.refl hs, .mk rfl ⟨Nat.le_refl _, hend⟩ ?_⟩
  refine owned_statement (hΓ.within h) fun hstrict => ?_
  -- the string lies between the start of the statement and its end
  have hleaf := isLeaf_of_isUseStrict hstrict
  obtain ⟨hparts, hle⟩ := hvalue.2 hleaf
  have hstop := hheld hleaf
  have hstart := hvalue.1.1
  exact ⟨landmarks_leaf hleaf hparts [], Nat.le_refl _, by simp only; omega, Nat.le_refl _⟩

/-- A statement is laid out from its own start on. -/
theorem Tracks.restart {k : Nat → Parser Node}
    (hk : ∀ start, start ≤ byteLength text →
      Tracks text start (fun _ => True) [] (k start) (Leaves text start [])) :
    Tracks text lo F [] (Parser.position >>= k) (Leaves text lo []) := by
  intro c s hc hs _ hΓ
  have hend := Nat.le_trans hs.start_le hs.from_here.le_byteLength
  have hlo := hΓ.le
  refine (hk s.reading.token.span.start hend c s hc hs trivial (.nil (Nat.le_refl _))).imp ?_
  rintro n s' - ⟨⟨hstart, hleaf⟩, hends, howned⟩
  exact ⟨⟨⟨Nat.le_trans hlo hstart.1, hstart.2⟩, hleaf⟩, hends, howned.mono hlo⟩

/-! ## Parts of statements -/

/-- Behind an expression in parentheses nothing is known of the place it ended at. -/
theorem Tracks.head {β : Type} {Q : β → State → Prop} {k : Node → Parser β} (hg : g.Lays text)
    (hk : ∀ test, Tracks text lo (fun _ => True) (test :: Γ) (k test) Q) :
    Tracks text lo F Γ (Parser.head g >>= k) Q := by
  have hhead : Tracks text lo F Γ (Parser.head g) (fun test s => Owned text lo s (test :: Γ)) := by
    refine .step (expect_lays _) fun _ _ => ?_
    refine .step (allowingIn_lays (expression_lays hg)) fun inner _ => ?_
    exact .step (expect_lays _) fun _ _ => .give fun s _ hΓ => hΓ
  exact .bindPost hhead fun test => .conseq (hk test) fun _ _ hs _ => ⟨trivial, hs⟩

theorem blockStatement_lays (hg : g.Lays text) : Lays text (blockStatement g) :=
  fun _ => .position fun _ hstart => .step (braced_lays hg _) fun _ _ => .node rfl hstart (.refl _)

theorem bracedBody_lays (hg : g.Lays text) : Lays text (bracedBody g) :=
  fun _ => .position fun _ hstart => .step (braced_lays hg _) fun _ _ => .node rfl hstart (.refl _)

theorem declarator_lays (hg : g.Lays text) (lexical inHead strictConst : Bool) :
    Lays text (declarator g lexical inHead strictConst) := by
  intro lo
  refine .position fun start hstart => .step (hg.binding _) fun name _ => ?_
  refine .read (.isWord _) fun b => .read (.isWord _) fun b' => .ite (.node rfl hstart (.refl _)) ?_
  refine .eatIf (eat_eats _) (.step hg.assignment fun value _ => .node rfl hstart (by grind)) ?_
  split
  · exact .node rfl hstart (.refl _)
  · exact .ite (.node rfl hstart (.refl _)) .refuse

theorem declarators_lays (hg : g.Lays text) (lexical inHead strictConst : Bool) (limit : Nat) :
    Lays text (declarators g lexical inHead strictConst limit) := by
  induction limit with
  | zero => exact fun _ => .exhausted
  | succ limit ih =>
    intro lo
    refine .readIf (.isMarkOrEnd _) (nil_lays lo) ?_
    refine .step (declarator_lays hg _ _ _) fun first _ => .eatIf (eat_eats _) ?_ ?_
    · exact .step ih fun others _ => .pure (fun _ _ => trivial) trivial (by grind)
    · exact .pure (fun _ _ => trivial) trivial (.refl _)

theorem skipToSemicolon_lays (limit : Nat) : Lays text (skipToSemicolon limit) := by
  induction limit with
  | zero => exact fun _ => .exhausted
  | succ limit ih =>
    intro lo
    refine .eatIf eatSemicolon_eats (.pure (fun _ _ => trivial) trivial (.refl _)) ?_
    refine .step advance_lays fun _ _ => .read .token fun t => .ite ?_ ih.frame
    exact .pure (fun _ _ => trivial) trivial (.refl _)

theorem variableList_lays (hg : g.Lays text) (keyword : String) (inHead : Bool) :
    Lays text (variableList g keyword inHead) := by
  intro lo
  refine .position fun start hstart => .step advance_lays fun _ _ => ?_
  refine .read .isStrict fun strict => ?_
  refine .step (within_lays (fun _ => rfl) (declarators_lays hg _ _ _ _)) fun items _ => ?_
  refine .ite (.node rfl hstart (.refl _)) ?_
  refine .eatIf eatSemicolon_eats (.node rfl hstart (.refl _)) ?_
  refine .step forgive_lays fun _ _ => ?_
  refine .step (discard_lays (orElse_lays (expression_lays hg) missing_lays)) fun _ _ => ?_
  exact .step (skipToSemicolon_lays _) fun _ _ => .node rfl hstart (.refl _)

theorem usingDeclaration_tracks (hg : g.Lays text) (hstart : Starts text lo start) :
    Tracks text lo F Γ (usingDeclaration g start) (Leaves text lo Γ) := by
  refine .read .peek fun following => .read (.namesSomething _) fun b => .ite ?_ ?_
  · exact .pure (fun _ _ => trivial) trivial (.refl _)
  · refine .step advance_lays fun _ _ => .step (declarators_lays hg _ _ _ _) fun items _ => ?_
    refine .step (discard_lays eatSemicolon_eats.lays) fun _ _ => ?_
    refine .bindNode Γ rfl hstart (by grind) fun n _ => ?_
    exact .pure (fun _ _ => trivial) trivial (.refl _)

/-! ## Loops -/

theorem loopTail_lays (hg : g.Lays text) : Lays text (loopTail g) := by
  intro lo
  have hstep {Γ : List Node} {F : State → Prop} (test : List Node) (h : Within test Γ) :
      Tracks text lo F Γ (do
        if ← isMark ")" then return test
        else
          let step ← allowingIn (expression g)
          return test ++ [step]) (Leaves text lo []) := by
    refine .readIf (.isMark _) (.pure (fun _ _ => trivial) trivial (by grind)) ?_
    refine .step (allowingIn_lays (expression_lays hg)) fun step _ => ?_
    exact .pure (fun _ _ => trivial) trivial (by grind)
  refine .eatIf (eat_eats _) (.pureBind (hstep [] (.nil _))) ?_
  refine .step (allowingIn_lays (expression_lays hg)) fun test _ => ?_
  exact .step (expect_lays _) fun _ _ => .pureBind (hstep [test] (.refl _))

theorem loopOver_tracks (hg : g.Lays text) {await : Bool} {left : Node} (h : Within [left] Γ) :
    Tracks text lo F Γ (loopOver g await left) (Leaves text lo []) := by
  refine .eatIf (eatWord_eats _) ?_ ?_
  · refine .step (allowingIn_lays hg.assignment) fun right _ => ?_
    exact .pure (fun _ _ => trivial) rfl (by grind)
  · refine .step (expectWord_lays _) fun _ _ => ?_
    refine .step (allowingIn_lays (expression_lays hg)) fun right _ => ?_
    exact .pure (fun _ _ => trivial) rfl (by grind)

theorem loopHead_lays (hg : g.Lays text) (await : Bool) : Lays text (loopHead g await) := by
  intro lo
  refine .token fun t ht => .read .peek fun following => .ite ?_ (.eatIf (eat_eats _) ?_ ?_)
  · refine .step (variableList_lays hg _ _) fun list _ => ?_
    refine .read (.isWord _) fun b => .read (.isWord _) fun b' => .ite ?_ ?_
    · exact loopOver_tracks hg (.refl _)
    · refine .step (expect_lays _) fun _ _ => .step (loopTail_lays hg) fun parts _ => ?_
      exact .pure (fun _ _ => trivial) rfl (by grind)
  · exact .step (loopTail_lays hg) fun parts _ => .pure (fun _ _ => trivial) rfl (.refl _)
  · refine .step (within_lays (fun _ => rfl) (expression_lays hg)) fun first _ => ?_
    refine .read .peek fun following' => .read (.isWord _) fun b => .ite ?_ ?_
    · refine .step (bindingIdentifier_lays _) fun name _ => ?_
      have hlist : Within [.mk .declarator name.span [name]] [name, first] :=
        .mk rfl (by grind)
      refine .bindNode [] rfl ht hlist fun list _ => ?_
      exact loopOver_tracks hg (.refl _)
    · refine .read (.isWord _) fun b => .read (.isWord _) fun b' => .ite ?_ ?_
      · split
        · rename_i target htarget
          exact loopOver_tracks hg (asPattern_within first htarget)
        · exact .refuse
      · refine .step (expect_lays _) fun _ _ => .step (loopTail_lays hg) fun parts _ => ?_
        exact .pure (fun _ _ => trivial) rfl (by grind)

theorem forStatement_lays (hg : g.Lays text) : Lays text (forStatement g) := by
  intro lo
  refine .position fun start hstart => .step (expectWord_lays _) fun _ _ => ?_
  refine .step (eatWord_eats _).lays fun await _ => .step (expect_lays _) fun _ _ => ?_
  refine .step (within_lays (fun _ => rfl) (loopHead_lays hg _)) fun parts hkind => ?_
  obtain ⟨kind, parts⟩ := parts
  refine .step (expect_lays _) fun _ _ => .step (hg.statement _) fun body _ => ?_
  exact .ite .refuse (.node hkind hstart (by grind))

theorem doStatement_lays (hg : g.Lays text) : Lays text (doStatement g) := by
  intro lo
  refine .position fun start hstart => .step (expectWord_lays _) fun _ _ => ?_
  refine .step (hg.statement _) fun body _ => .step (expectWord_lays _) fun _ _ => ?_
  refine .head hg fun test => .step (discard_lays eatSemicolon_eats.lays) fun _ _ => ?_
  exact .node rfl hstart (by grind)

/-! ## Branches and handlers -/

theorem ifStatement_lays (hg : g.Lays text) : Lays text (ifStatement g) := by
  intro lo
  refine .position fun start hstart => .step (expectWord_lays _) fun _ _ => .head hg fun test => ?_
  refine .step (hg.statement _) fun yes _ => .eatIf (eatWord_eats _) ?_ ?_
  · exact .step (hg.statement _) fun no _ => .node rfl hstart (by grind)
  · exact .node rfl hstart (by grind)

theorem switchCases_lays (hg : g.Lays text) (hadDefault : Bool) (limit : Nat) :
    Lays text (switchCases g hadDefault limit) := by
  induction limit generalizing hadDefault with
  | zero => exact fun _ => .exhausted
  | succ limit ih =>
    intro lo
    refine .position fun start hstart => .read (.isWord _) fun isCase => ?_
    refine .read (.isWord _) fun isDefault => .ite (nil_lays.frame) (.ite .refuse ?_)
    refine .step advance_lays fun _ _ => ?_
    have hstop : IsRead (do
        return (← isMarkOrEnd "\x7d") || (← isWord "case") || (← isWord "default")) :=
      .bind (.isMarkOrEnd _) fun _ => .bind (.isWord _) fun _ => .bind (.isWord _) fun _ => .pure _
    have hitems {F : State → Prop} (test : List Node) : Tracks text lo F (test ++ []) (do
        expect ":"
        let items ← manyUntil
          (do return (← isMarkOrEnd "\x7d") || (← isWord "case") || (← isWord "default"))
          (do return [← g.parse (.statement true)]) g.limit
        let first ← node (if isCase then .switchCase else .defaultCase) start (test ++ items)
        return first :: (← switchCases g (hadDefault || isDefault) limit)) (Leaves text lo []) := by
      refine .step (expect_lays _) fun _ _ => ?_
      refine .step (manyUntil_lays hstop (singleton_lays (hg.statement _)) _) fun items _ => ?_
      refine .bindNode [] (by split <;> rfl) hstart (by grind) fun first _ => ?_
      exact .step (ih _) fun others _ => .pure (fun _ _ => trivial) trivial (by grind)
    refine .ite ?_ ?_
    · exact .step (singleton_lays (allowingIn_lays (expression_lays hg))) fun test _ => hitems test
    · exact .step nil_lays fun test _ => hitems test

theorem switchStatement_lays (hg : g.Lays text) : Lays text (switchStatement g) := by
  intro lo
  refine .position fun start hstart => .step (expectWord_lays _) fun _ _ => .head hg fun value => ?_
  refine .step (expect_lays _) fun _ _ => .step (switchCases_lays hg _ _) fun cases _ => ?_
  exact .step (expect_lays _) fun _ _ => .node rfl hstart (by grind)

theorem catchClause_lays (hg : g.Lays text) : Lays text (catchClause g) := by
  intro lo
  have hbody {start : Nat} (hstart : Starts text lo start) {F : State → Prop} {Γ : List Node}
      (name : List Node) (h : Within name Γ) :
      Tracks text lo F Γ (do
        let body ← bracedBody g
        return [← node .catchClause start (name ++ [body])]) (Leaves text lo []) := by
    refine .step (bracedBody_lays hg) fun body _ => ?_
    refine .bindNode [] rfl hstart (by grind) fun n _ => ?_
    exact .pure (fun _ _ => trivial) trivial (.refl _)
  have hname : Lays text (do
      let name ← g.parse (.binding false)
      expect ")"
      return [name]) := by
    intro lo
    refine .step (hg.binding _) fun name _ => .step (expect_lays _) fun _ _ => ?_
    exact .pure (fun _ _ => trivial) trivial (.refl _)
  refine .position fun start hstart => .eatIf (eatWord_eats _) (.eatIf (eat_eats _) ?_ ?_) ?_
  · exact .step hname fun name _ => hbody hstart name (by grind)
  · exact .pureBind (hbody hstart [] (.nil _))
  · exact nil_lays lo

theorem finallyBlock_lays (hg : g.Lays text) : Lays text (finallyBlock g) :=
  fun lo => .eatIf (eatWord_eats _) (singleton_lays (bracedBody_lays hg) lo) (nil_lays lo)

theorem tryStatement_lays (hg : g.Lays text) : Lays text (tryStatement g) := by
  intro lo
  refine .position fun start hstart => .step (expectWord_lays _) fun _ _ => ?_
  refine .step (bracedBody_lays hg) fun body _ => .step (catchClause_lays hg) fun handler _ => ?_
  exact .step (finallyBlock_lays hg) fun final _ => .node rfl hstart (by grind)

theorem strayHandler_lays (hg : g.Lays text) : Lays text (strayHandler g) := by
  intro lo
  have hhandler := discard_lays (orElse_lays (catchClause_lays hg) nil_lays)
  have hfinal := discard_lays (orElse_lays (finallyBlock_lays hg) nil_lays)
  refine .step forgive_lays fun _ _ => ?_
  refine .token fun t ht => .step hhandler fun _ _ => .step hfinal fun _ _ => ?_
  refine .give fun s _ hΓ => .mk rfl ht ?_
  refine owned_statement (hΓ.within (.mk rfl (.refl _))) fun hstrict => ?_
  exact absurd (isLeaf_of_isUseStrict hstrict) (by simp [Node.kind, Kind.isLeaf])

/-! ## Simple statements -/

theorem jumpStatement_lays (kind : Option String → Kind)
    (hkind : ∀ label, (kind label).isPlain = true) : Lays text (jumpStatement kind) := by
  intro lo
  refine .position fun start hstart => .step advance_lays fun _ _ => ?_
  refine .eatIf eatSemicolon_eats (.node (hkind _) hstart (.refl _)) ?_
  refine .step (identifier_lays _ _) fun label _ => .step expectSemicolon_lays fun _ _ => ?_
  split
  · exact .node (hkind _) hstart (.nil _)
  · exact .refuse

theorem returnStatement_lays (hg : g.Lays text) : Lays text (returnStatement g) := by
  intro lo
  refine .position fun start hstart => .step advance_lays fun _ _ => ?_
  refine .eatIf eatSemicolon_eats (.node rfl hstart (.refl _)) ?_
  refine .step (allowingIn_lays (expression_lays hg)) fun value _ => ?_
  exact .step expectSemicolon_lays fun _ _ => .node rfl hstart (.refl _)

theorem throwStatement_lays (hg : g.Lays text) : Lays text (throwStatement g) := by
  intro lo
  refine .position fun start hstart => .step advance_lays fun _ _ => .read .token fun t => ?_
  refine .ite .refuse (.step (allowingIn_lays (expression_lays hg)) fun value _ => ?_)
  exact .step expectSemicolon_lays fun _ _ => .node rfl hstart (.refl _)

theorem headedStatement_lays (hg : g.Lays text) {kind : Kind} (hkind : kind.isPlain = true) :
    Lays text (headedStatement g kind) := by
  intro lo
  refine .position fun start hstart => .step advance_lays fun _ _ => .head hg fun test => ?_
  exact .step (hg.statement _) fun body _ => .node hkind hstart (by grind)

theorem declarationStatement_lays {p : Parser Node} (hp : Lays text p) :
    Lays text (declarationStatement p) :=
  fun _ => .position fun _ hstart => .step hp fun _ _ => .node rfl hstart (.refl _)

theorem labeledFrom_tracks (hg : g.Lays text) {label : String} (hstart : Starts text lo start) :
    Tracks text lo F Γ (labeledFrom g start label) (Leaves text lo []) := by
  have hfunction : Lays text (do functionDeclaration g false true (← position) []) :=
    fun _ => .position fun _ hhere => functionDeclaration_tracks hg hhere (.refl _)
  refine .readIf (.isWord _) ?_ ?_
  · refine .step (declarationStatement_lays hfunction) fun body _ => .node rfl hstart (by grind)
  · exact .step (hg.statement _) fun body _ => .node rfl hstart (by grind)

theorem expressionEnd_tracks (hg : g.Lays text) (hend : start ≤ byteLength text) {value : Node}
    (hvalue : begins text start value) :
    Tracks text start (ends text · value) (value :: Γ) (expressionEnd g start value)
      (Leaves text start []) := by
  refine .eatIfKeep eatSemicolon_eats (fun s s' => Held.of_ends) ?_ ?_
  · exact .statementNode hend hvalue (by grind)
  · refine .read .token fun t => .read .token fun t' => ?_
    split
    · refine .bind (hg.operators Γ _ value hvalue) fun value' hvalue' => ?_
      have hheld : Within [value'] (nodes value' ++ Γ) := by grind
      refine .conseq (.statementNode hend hvalue' hheld) ?_
      exact fun s hs hends hΓ => ⟨Held.of_ends hends (.refl hs), hΓ⟩
    · exact .refuse

theorem expressionStatement_tracks (hg : g.Lays text) (hend : start ≤ byteLength text) :
    Tracks text start F Γ (expressionStatement g start) (Leaves text start []) := by
  refine .step (allowingIn_lays (expression_lays hg)) fun value hvalue => ?_
  split
  · refine .eatIf (eat_eats _) ?_ (expressionEnd_tracks hg hend hvalue)
    exact labeledFrom_tracks hg ⟨Nat.le_refl _, hend⟩
  · exact expressionEnd_tracks hg hend hvalue

theorem importExpressionStatement_tracks (hg : g.Lays text) (hend : start ≤ byteLength text) :
    Tracks text start F Γ (importExpressionStatement g start) (Leaves text start []) := by
  refine .step (expression_lays hg) fun value hvalue => ?_
  refine .bindPost ((discard_lays eatSemicolon_eats.lays).keep fun s s' => Held.of_ends) fun _ => ?_
  refine .conseq (.statementNode hend hvalue (by grind : Within [value] (nodes value ++ Γ))) ?_
  exact fun s _ hs _ => ⟨hs.2, hs.1.2.2⟩

/-- Where no `using` list follows, the statement is read from its start again, so only the second
reading counts. -/
theorem awaitStatement_tracks (hg : g.Lays text) (hend : start ≤ byteLength text) :
    Tracks text start F Γ (awaitStatement g start) (Leaves text start []) := by
  refine .read .peek fun following => .ite ?_ (expressionStatement_tracks hg hend)
  intro c s hc hs hF hΓ
  have hnext := hs.next.2
  have hlist := usingDeclaration_tracks (F := fun _ => True) (Γ := []) hg ⟨Nat.le_refl _, hend⟩
    c s.next hc hnext.on trivial (.nil (Nat.le_trans hΓ.le hnext.start_le))
  have hagain := expressionStatement_tracks (F := F) hg hend c s hc hs hF hΓ
  simp only [Bind.bind, andThen, Parser.state, advance]
  cases hrun : usingDeclaration g start c s.next with
  | done list s' =>
    rw [hrun] at hlist
    cases list with
    | none => exact hagain
    | some list =>
      have hnode : Tracks text start (fun _ => True) [list] (node .declaration start [list])
        (Leaves text start []) := .node rfl ⟨Nat.le_refl _, hend⟩ (.refl _)
      exact ⟨hnext.trans hlist.1, (hnode c s' hc hlist.1.on trivial hlist.2.2.2).2⟩
  | refused s' =>
    rw [hrun] at hlist
    exact hnext.trans hlist
  | exhausted => trivial

theorem wordStatement_tracks (hg : g.Lays text) (hend : start ≤ byteLength text)
    (declarations : Bool) {marks : List Node} (hmarks : Within marks Γ) (word : String) :
    Tracks text start F Γ (wordStatement g declarations marks start word)
      (Leaves text start []) := by
  have hstart : Starts text start start := ⟨Nat.le_refl _, hend⟩
  have hall : Within (marks ++ []) Γ := by grind
  -- most statements do not take the decorators in: these are dropped
  have halone {p : Parser Node} (hp : Lays text p) :
      Tracks text start F Γ p (Leaves text start []) := (hp start).shed (.nil _)
  unfold wordStatement
  split
  · exact halone (jumpStatement_lays .breakStatement fun _ => rfl)
  · exact halone (jumpStatement_lays .continueStatement fun _ => rfl)
  · refine .step advance_lays fun _ _ => .step expectSemicolon_lays fun _ _ => ?_
    exact .node rfl hstart (.nil _)
  · exact halone (doStatement_lays hg)
  · exact halone (forStatement_lays hg)
  · refine .position fun here hhere => ?_
    refine .bind (functionDeclaration_tracks hg hhere hall) fun inner _ => ?_
    exact .node rfl hstart (.refl _)
  · refine .bind (classFrom_tracks hg hstart hall) fun inner _ => ?_
    exact .node rfl hstart (.refl _)
  · exact halone (ifStatement_lays hg)
  · exact halone (returnStatement_lays hg)
  · exact halone (switchStatement_lays hg)
  · exact halone (throwStatement_lays hg)
  · exact halone (strayHandler_lays hg)
  · exact halone (strayHandler_lays hg)
  · exact halone (tryStatement_lays hg)
  · exact halone (headedStatement_lays hg rfl)
  · exact halone (headedStatement_lays hg rfl)
  · exact halone (declarationStatement_lays (variableList_lays hg _ _))
  · refine .read .peek fun following => .ite ?_ (.ite ?_ (.ite ?_ (.ite ?_ (.ite ?_ ?_))))
    · exact halone (declarationStatement_lays (variableList_lays hg _ _))
    · exact halone (declarationStatement_lays (variableList_lays hg _ _))
    · refine .bind (usingDeclaration_tracks hg hstart) fun list _ => ?_
      split
      · exact .node rfl hstart (by grind)
      · exact expressionStatement_tracks hg hend
    · exact awaitStatement_tracks hg hend
    · refine .position fun here hhere => .step advance_lays fun _ _ => ?_
      refine .bind (functionDeclaration_tracks hg hhere hall) fun inner _ => ?_
      exact .node rfl hstart (.refl _)
    · exact expressionStatement_tracks hg hend

theorem plainStatement_tracks (hg : g.Lays text) (hend : start ≤ byteLength text)
    (declarations : Bool) {marks : List Node} (hmarks : Within marks Γ) :
    Tracks text start F Γ (plainStatement g declarations marks start)
      (Leaves text start []) := by
  refine .read .token fun t => ?_
  split
  · exact wordStatement_tracks hg hend declarations hmarks _
  · exact (blockStatement_lays hg start).shed (.nil _)
  · exact .step advance_lays fun _ _ => .node rfl ⟨Nat.le_refl _, hend⟩ (.nil _)
  · exact expressionStatement_tracks hg hend

end AmdModules.Script.Parser
