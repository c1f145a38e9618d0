import AmdModules.Proofs.Layout.Statement
import AmdModules.Proofs.Reread.Expression

/-!
# Statements of a filled text

Where nothing is forgiven, a `var` list has to end and no `catch` stands alone. A statement that
starts with `await` may be read twice; what is put in into it is read the second time.
-/

set_option autoImplicit false

namespace AmdModules.Script.Parser

open Text Yields Mirrors
open Filling (AlikeAll)

variable {text : List Char} {f : Filling text} {g g' : Grammar} {F : State → Prop} {Γ : List Node}
  {start start' : Nat}

theorem head_rereads (hg : g.Rereads f g') : Rereads f (head g) (head g') := by
  refine .step (expect_rereads _) fun _ _ _ => ?_
  refine .step (allowingIn_rereads (expression_rereads hg)) fun inner inner' hinner => ?_
  exact .step (expect_rereads _) fun _ _ _ => .pure hinner (by grind)

theorem blockStatement_rereads (hg : g.Rereads f g') :
    Rereads f (blockStatement g) (blockStatement g') :=
  .position fun _ _ => .step (braced_rereads hg _) fun _ _ hitems => .node nofun hitems (by grind)

theorem bracedBody_rereads (hg : g.Rereads f g') : Rereads f (bracedBody g) (bracedBody g') :=
  .position fun _ _ => .step (braced_rereads hg _) fun _ _ hitems => .node nofun hitems (by grind)

/-! ## Lists of variables -/

theorem declarator_rereads (hg : g.Rereads f g') (lexical inHead strictConst : Bool) :
    Rereads f (declarator g lexical inHead strictConst)
      (declarator g' lexical inHead strictConst) := by
  refine .position fun start start' => .step (hg.binding _) fun name name' hname => ?_
  refine .read (.isWord _) fun b => .read (.isWord _) fun b' => ?_
  refine .ite (.node nofun (.singleton hname) (by grind)) (.eatIf (eat_rereads _) ?_ ?_)
  · refine .step hg.assignment fun value value' hvalue => ?_
    exact .node nofun (.cons hname (.singleton hvalue)) (by grind)
  · rw [hname.kind]
    split
    · exact .node nofun (.singleton hname) (by grind)
    · exact .ite (.node nofun (.singleton hname) (by grind)) .refuse

theorem declarators_rereads (hg : g.Rereads f g') (lexical inHead strictConst : Bool)
    {limit limit' : Nat} (hle : limit ≤ limit') :
    Rereads f (declarators g lexical inHead strictConst limit)
      (declarators g' lexical inHead strictConst limit') := by
  induction limit generalizing limit' with
  | zero => exact .exhausted
  | succ limit ih =>
    obtain ⟨limit', rfl⟩ : ∃ n, limit' = n + 1 := ⟨limit' - 1, by omega⟩
    refine .readIf (.isMarkOrEnd _) nil_rereads.frame ?_
    refine .step (declarator_rereads hg _ _ _) fun first first' hfirst => ?_
    refine .eatIf (eat_rereads _) ?_ (.pure (.singleton hfirst) (by grind))
    refine .step (ih (Nat.le_of_succ_le_succ hle)) fun others others' hothers => ?_
    exact .pure (.cons hfirst hothers) (by grind)

theorem variableList_rereads (hg : g.Rereads f g') (keyword : String) (inHead : Bool) :
    Rereads f (variableList g keyword inHead) (variableList g' keyword inHead) := by
  refine .position fun start start' => .step advance_rereads fun _ _ _ => ?_
  refine .read .isStrict fun strict => ?_
  refine .step (within_rereads { } (declarators_rereads hg _ _ _ hg.limit))
    fun items items' hitems => ?_
  refine .ite (.node nofun hitems (by grind)) ?_
  refine .eatIf eatSemicolon_rereads (.node nofun hitems (by grind)) ?_
  exact .never fun c s t n hc _ => forgive_never hc n

theorem usingDeclaration_retraces (hg : g.Rereads f g') :
    Retraces f (·.reading.token.kind.looksAhead = true) Γ (usingDeclaration g start)
      (usingDeclaration g' start') := by
  refine .peek (fun _ h => h) fun kind span span' new => .read .namesSomething fun b => ?_
  refine .ite (.pure .none (.nil _)) (.step advance_rereads fun _ _ _ => ?_)
  refine .step (declarators_rereads hg _ _ _ hg.limit) fun items items' hitems => ?_
  refine .step (discard_rereads eatSemicolon_rereads) fun _ _ _ => ?_
  refine .bindNode nofun hitems (by grind) fun n n' hn => ?_
  exact .pure (.some hn) (by grind)

/-! ## Loops -/

theorem loopTail_rereads (hg : g.Rereads f g') : Rereads f (loopTail g) (loopTail g') := by
  have hstep {F : State → Prop} {Γ test test' : List Node} (htest : f.AlikeAll test test')
      (h : Within test Γ) : Retraces f F Γ (do
        if ← isMark ")" then return test
        else
          let step ← allowingIn (expression g)
          return test ++ [step]) (do
        if ← isMark ")" then return test'
        else
          let step ← allowingIn (expression g')
          return test' ++ [step]) := by
    refine .readIf (.isMark _) (.pure htest h) ?_
    refine .step (allowingIn_rereads (expression_rereads hg)) fun step step' hstep => ?_
    exact .pure (.append htest (.singleton hstep)) (by grind)
  refine .eatIf (eat_rereads _) (.pureBind (hstep .nil (.nil _))) ?_
  refine .step (allowingIn_rereads (expression_rereads hg)) fun test test' htest => ?_
  exact .step (expect_rereads _) fun _ _ _ => .pureBind (hstep (.singleton htest) (by grind))

theorem loopOver_retraces (hg : g.Rereads f g') {await : Bool} {left left' : Node}
    (hleft : f.Alike left left') (h : Within [left] Γ) :
    Retraces f F Γ (loopOver g await left) (loopOver g' await left') := by
  refine .eatIf (eatWord_rereads _) ?_ ?_
  · refine .step (allowingIn_rereads hg.assignment) fun right right' hright => ?_
    exact .pure ⟨rfl, .cons hleft (.singleton hright)⟩ (by grind)
  · refine .step (expectWord_rereads _) fun _ _ _ => ?_
    refine .step (allowingIn_rereads (expression_rereads hg)) fun right right' hright => ?_
    exact .pure ⟨rfl, .cons hleft (.singleton hright)⟩ (by grind)

theorem isUsing_eq {n n' : Node} (h : f.Alike n n') : isUsing n' = isUsing n := by
  unfold isUsing
  rw [h.kind]
  congr 1
  by_cases hcall : n.kind = .call
  · rw [hcall]
  · have hparts := h.parts hcall
    rcases hcase : n.parts with _ | ⟨part, _ | ⟨second, others⟩⟩
    all_goals rw [hcase] at hparts
    · rw [hparts.of_nil]
    · obtain ⟨part', ns', heq, hpart, hns⟩ := hparts.of_cons
      obtain rfl := hns.of_nil
      rw [heq]
      generalize n.kind = kind
      cases kind
      case await => exact congrArg (· == Kind.identifier "using") hpart.kind
      all_goals rfl
    · obtain ⟨part', ns', heq, -, hns⟩ := hparts.of_cons
      obtain ⟨second', others', rfl, -⟩ := hns.of_cons
      rw [heq]
      generalize n.kind = kind
      cases kind <;> rfl

/-- A name is read where a word stands. -/
theorem bindingIdentifier_done {lexical : Bool} {c : Context} {s t : State} {n : Node}
    (h : bindingIdentifier lexical c s = .done n t) : s.reading.token.kind.looksAhead = true := by
  obtain ⟨b, s₁, hword, h⟩ := bind_done h
  cases hword
  split at h
  · exact absurd h (refuse_ne_done c)
  · obtain ⟨name, s₂, hname, -⟩ := bind_done h
    obtain ⟨t, s₃, htoken, hname⟩ := bind_done hname
    cases htoken
    cases hkind : s.reading.token.kind
    case word => rfl
    all_goals
      rw [hkind] at hname
      exact absurd hname (refuse_ne_done c)

/-- The part of a loop head behind an expression. -/
def loopRest (g : Grammar) (await : Bool) (start : Nat) (first : Node) :
    Parser (Kind × List Node) := do
  let following ← peek
  if isUsing first && !(← isWord "of")
      && (following.kind == .word "of" || following.kind == .word "in") then
    let name ← bindingIdentifier false
    let list ← node (.variableList "using") start [.mk .declarator name.span [name]]
    loopOver g await list
  else if (← isWord "of") || (← isWord "in") then
    match asPattern .assigned first with
    | some target => loopOver g await target
    | none => refuse
  else
    expect ";"
    return (.forLoop, first :: (← loopTail g))

/-- Behind an expression only a word or a semicolon goes on. -/
theorem loopRest_done {await : Bool} {first : Node} {c : Context} {s t : State}
    {parts : Kind × List Node} (h : loopRest g await start first c s = .done parts t) :
    s.reading.token.kind.looksAhead = true := by
  obtain ⟨following, s₁, hpeek, h⟩ := bind_done h
  cases hpeek
  obtain ⟨isOf, s₁, hof, h⟩ := bind_done h
  cases hof
  split at h
  · obtain ⟨name, s₂, hname, -⟩ := bind_done h
    exact bindingIdentifier_done hname
  · obtain ⟨isOf, s₁, hof, h⟩ := bind_done h
    cases hof
    obtain ⟨isIn, s₁, hin, h⟩ := bind_done h
    cases hin
    split at h
    · rename_i hword
      rw [Bool.or_eq_true, beq_iff_eq, beq_iff_eq] at hword
      rcases hword with hword | hword <;> rw [hword] <;> rfl
    · obtain ⟨_, s₂, hexpect, -⟩ := bind_done h
      rw [(expect_done hexpect).1]
      rfl

theorem loopRest_retraces (hg : g.Rereads f g') {await : Bool} {first first' : Node}
    (hfirst : f.Alike first first') (h : Within [first] Γ) :
    Retraces f F Γ (loopRest g await start first) (loopRest g' await start' first') := by
  refine .cases (·.reading.token.kind.looksAhead = true) ?_
    (.never fun c s t a _ hnot hrun => hnot.2 (loopRest_done hrun))
  unfold loopRest
  rw [isUsing_eq hfirst]
  refine .peek (fun s hs => hs.2) fun kind span span' new => .read (.isWord _) fun b => .ite ?_ ?_
  · refine .step (bindingIdentifier_rereads _) fun name name' hname => ?_
    refine .bindNode nofun (.singleton (.mk (by nofun) _ _ (.singleton hname)))
      (.mk rfl (by grind)) fun list list' hlist => ?_
    exact loopOver_retraces hg hlist (by grind)
  · refine .read (.isWord _) fun b => .read (.isWord _) fun b' => .ite ?_ ?_
    · have htarget := hfirst.asPattern .assigned
      cases hcase : asPattern .assigned first <;> cases hcase' : asPattern .assigned first' <;>
        rw [hcase, hcase'] at htarget <;> cases htarget
      · exact .refuse
      · rename_i target target' htarget
        exact loopOver_retraces hg htarget (.trans (asPattern_within first hcase) h)
    · refine .step (expect_rereads _) fun _ _ _ => ?_
      refine .step (loopTail_rereads hg) fun parts parts' hparts => ?_
      exact .pure ⟨rfl, .cons hfirst hparts⟩ (by grind)

/-- A loop head behind the tokens that tell whether it declares something. -/
def loopStart (g : Grammar) (await declares : Bool) (keyword : String) (start : Nat) :
    Parser (Kind × List Node) := do
  if declares then
    let list ← variableList g keyword true
    if (← isWord "of") || (← isWord "in") then loopOver g await list
    else
      expect ";"
      return (.forLoop, list :: (← loopTail g))
  else if ← eat ";" then return (.forLoop, ← loopTail g)
  else
    let first ← within ({ · with allowIn := false }) (expression g)
    loopRest g await start first

theorem loopStart_rereads (hg : g.Rereads f g') (await declares : Bool) (keyword : String) :
    Rereads f (loopStart g await declares keyword start)
      (loopStart g' await declares keyword start') := by
  refine .ite ?_ (.eatIf (eat_rereads _) ?_ ?_)
  · refine .step (variableList_rereads hg _ _) fun list list' hlist => ?_
    refine .read (.isWord _) fun b => .read (.isWord _) fun b' => .ite ?_ ?_
    · exact loopOver_retraces hg hlist (by grind)
    · refine .step (expect_rereads _) fun _ _ _ => ?_
      refine .step (loopTail_rereads hg) fun parts parts' hparts => ?_
      exact .pure ⟨rfl, .cons hlist hparts⟩ (by grind)
  · refine .step (loopTail_rereads hg) fun parts parts' hparts => ?_
    exact .pure ⟨rfl, hparts⟩ (by grind)
  · refine .step (within_rereads { } (expression_rereads hg)) fun first first' hfirst => ?_
    exact loopRest_retraces hg hfirst (by grind)

/-- What a loop that starts with a token declares its names with. -/
def keywordOf : TokenKind → String
  | .word word => word
  | _ => "var"

theorem loopHead_rereads (hg : g.Rereads f g') (await : Bool) :
    Rereads f (loopHead g await) (loopHead g' await) := by
  change Retraces f _ _
    (token >>= fun t => peek >>= fun following => loopStart g await
      (t.kind == .word "const" || t.kind == .word "var"
        || (t.kind == .word "let" && followsLet following))
      (keywordOf t.kind) t.span.start)
    (token >>= fun t => peek >>= fun following => loopStart g' await
      (t.kind == .word "const" || t.kind == .word "var"
        || (t.kind == .word "let" && followsLet following))
      (keywordOf t.kind) t.span.start)
  refine .look fun kind span span' new _ _ => ?_
  dsimp only
  by_cases hword : kind.looksAhead = true
  · refine .peek (fun s hs => by rw [hs]; exact hword) fun kind₂ span₂ span₂' new₂ => ?_
    exact (loopStart_rereads hg _ _ _).frame
  · -- behind any other token nothing is looked for
    have hlet : (kind == .word "let") = false := by
      rw [beq_eq_false_iff_ne]
      rintro rfl
      exact hword rfl
    refine .peekAny fun _ _ => ?_
    simp only [hlet, Bool.false_and]
    exact (loopStart_rereads hg _ _ _).frame

theorem forStatement_rereads (hg : g.Rereads f g') :
    Rereads f (forStatement g) (forStatement g') := by
  refine .position fun start start' => .step (expectWord_rereads _) fun _ _ _ => ?_
  refine .step (eatWord_rereads _) fun await await' hawait => ?_
  obtain rfl : await' = await := hawait
  refine .step (expect_rereads _) fun _ _ _ => ?_
  refine .bindPost (R := fun parts _ => parts.1 ≠ .call)
    (within_rereads { } (loopHead_rereads hg _)).frame (fun c s t parts hc hs _ hrun => ?_)
    fun parts parts' hparts => ?_
  · have hlays : Lays text (within ({ · with inForHead := true }) (loopHead g await')) :=
      within_lays (fun _ => rfl) (loopHead_lays hg.lays _)
    have hkind : parts.1.isPlain = true := (hlays.done hc.markup hs hrun).2.1
    intro hcall
    rw [hcall] at hkind
    exact absurd hkind (by decide)
  · obtain ⟨kind, parts⟩ := parts
    obtain ⟨kind', parts'⟩ := parts'
    obtain ⟨rfl, hparts⟩ := hparts
    by_cases hkind : kind' = .call
    · exact .never fun c s t n _ hnot => absurd hkind hnot
    · refine .step (expect_rereads _) fun _ _ _ => ?_
      refine .step (hg.statement _) fun body body' hbody => .ite .refuse ?_
      exact .node hkind (.append hparts (.singleton hbody)) (by grind)

theorem doStatement_rereads (hg : g.Rereads f g') :
    Rereads f (doStatement g) (doStatement g') := by
  refine .position fun start start' => .step (expectWord_rereads _) fun _ _ _ => ?_
  refine .step (hg.statement _) fun body body' hbody => .step (expectWord_rereads _) fun _ _ _ => ?_
  refine .step (head_rereads hg) fun test test' htest => ?_
  refine .step (discard_rereads eatSemicolon_rereads) fun _ _ _ => ?_
  exact .node nofun (.cons htest (.singleton hbody)) (by grind)

/-! ## Branches and handlers -/

theorem ifStatement_rereads (hg : g.Rereads f g') :
    Rereads f (ifStatement g) (ifStatement g') := by
  refine .position fun start start' => .step (expectWord_rereads _) fun _ _ _ => ?_
  refine .step (head_rereads hg) fun test test' htest => ?_
  refine .step (hg.statement _) fun yes yes' hyes => .eatIf (eatWord_rereads _) ?_ ?_
  · refine .step (hg.statement _) fun no no' hno => ?_
    exact .node nofun (.cons htest (.cons hyes (.singleton hno))) (by grind)
  · exact .node nofun (.cons htest (.singleton hyes)) (by grind)

theorem switchCases_rereads (hg : g.Rereads f g') (hadDefault : Bool) {limit limit' : Nat}
    (hle : limit ≤ limit') :
    Rereads f (switchCases g hadDefault limit) (switchCases g' hadDefault limit') := by
  induction limit generalizing hadDefault limit' with
  | zero => exact .exhausted
  | succ limit ih =>
    obtain ⟨limit', rfl⟩ : ∃ n, limit' = n + 1 := ⟨limit' - 1, by omega⟩
    refine .position fun start start' => .read (.isWord _) fun isCase => ?_
    refine .read (.isWord _) fun isDefault => .ite nil_rereads.frame (.ite .refuse ?_)
    refine .step advance_rereads fun _ _ _ => ?_
    have hstop (p : Parser Bool) (hp : p = do
        return (← isMarkOrEnd "\x7d") || (← isWord "case") || (← isWord "default")) :
        Echoes p p := by
      subst hp
      exact .bind (.isMarkOrEnd _) fun _ =>
        .bind (.isWord _) fun _ => .bind (.isWord _) fun _ => .pure _
    have hitems {F : State → Prop} {test test' : List Node} (htest : f.AlikeAll test test') :
        Retraces f F (test ++ []) (do
          expect ":"
          let items ← manyUntil
            (do return (← isMarkOrEnd "\x7d") || (← isWord "case") || (← isWord "default"))
            (do return [← g.parse (.statement true)]) g.limit
          let first ← node (if isCase then .switchCase else .defaultCase) start (test ++ items)
          return first :: (← switchCases g (hadDefault || isDefault) limit)) (do
          expect ":"
          let items ← manyUntil
            (do return (← isMarkOrEnd "\x7d") || (← isWord "case") || (← isWord "default"))
            (do return [← g'.parse (.statement true)]) g'.limit
          let first ← node (if isCase then .switchCase else .defaultCase) start' (test' ++ items)
          return first :: (← switchCases g' (hadDefault || isDefault) limit')) := by
      refine .step (expect_rereads _) fun _ _ _ => ?_
      refine .step (manyUntil_rereads (hstop _ rfl) (singleton_rereads (hg.statement _)) hg.limit)
        fun items items' hitems => ?_
      refine .bindNode (by split <;> nofun) (.append htest hitems) (by grind)
        fun first first' hfirst => ?_
      refine .step (ih _ (Nat.le_of_succ_le_succ hle)) fun others others' hothers => ?_
      exact .pure (.cons hfirst hothers) (by grind)
    refine .ite ?_ ?_
    · exact .step (singleton_rereads (allowingIn_rereads (expression_rereads hg)))
        fun test test' htest => hitems htest
    · exact .step nil_rereads fun test test' htest => hitems htest

theorem switchStatement_rereads (hg : g.Rereads f g') :
    Rereads f (switchStatement g) (switchStatement g') := by
  refine .position fun start start' => .step (expectWord_rereads _) fun _ _ _ => ?_
  refine .step (head_rereads hg) fun value value' hvalue => .step (expect_rereads _) fun _ _ _ => ?_
  refine .step (switchCases_rereads hg _ hg.limit) fun cases cases' hcases => ?_
  exact .step (expect_rereads _) fun _ _ _ => .node nofun (.cons hvalue hcases) (by grind)

theorem catchClause_rereads (hg : g.Rereads f g') :
    Rereads f (catchClause g) (catchClause g') := by
  have hbody {start start' : Nat} {F : State → Prop} {Γ name name' : List Node}
      (hname : f.AlikeAll name name') (h : Within name Γ) :
      Retraces f F Γ (do
        let body ← bracedBody g
        return [← node .catchClause start (name ++ [body])]) (do
        let body ← bracedBody g'
        return [← node .catchClause start' (name' ++ [body])]) := by
    refine .step (bracedBody_rereads hg) fun body body' hbody => ?_
    refine .bindNode nofun (.append hname (.singleton hbody)) (by grind) fun n n' hn => ?_
    exact .pure (.singleton hn) (by grind)
  have hname : Rereads f (do
      let name ← g.parse (.binding false)
      expect ")"
      return [name]) (do
      let name ← g'.parse (.binding false)
      expect ")"
      return [name]) := by
    refine .step (hg.binding _) fun name name' hname => .step (expect_rereads _) fun _ _ _ => ?_
    exact .pure (.singleton hname) (by grind)
  refine .position fun start start' => .eatIf (eatWord_rereads _) (.eatIf (eat_rereads _) ?_ ?_) ?_
  · exact .step hname fun name name' h => hbody h (by grind)
  · exact .pureBind (hbody .nil (.nil _))
  · exact nil_rereads.frame

theorem finallyBlock_rereads (hg : g.Rereads f g') :
    Rereads f (finallyBlock g) (finallyBlock g') :=
  .eatIf (eatWord_rereads _) (singleton_rereads (bracedBody_rereads hg)).frame nil_rereads.frame

theorem tryStatement_rereads (hg : g.Rereads f g') :
    Rereads f (tryStatement g) (tryStatement g') := by
  refine .position fun start start' => .step (expectWord_rereads _) fun _ _ _ => ?_
  refine .step (bracedBody_rereads hg) fun body body' hbody => ?_
  refine .step (catchClause_rereads hg) fun handler handler' hhandler => ?_
  refine .step (finallyBlock_rereads hg) fun final final' hfinal => ?_
  exact .node nofun (.append (.cons hbody hhandler) hfinal) (by grind)

theorem strayHandler_rereads : Rereads f (strayHandler g) (strayHandler g') :=
  .never fun _ _ _ n hc _ => forgive_never hc n

/-! ## Simple statements -/

theorem jumpStatement_rereads (kind : Option String → Kind) (hkind : ∀ label, kind label ≠ .call) :
    Rereads f (jumpStatement kind) (jumpStatement kind) := by
  refine .position fun start start' => .step advance_rereads fun _ _ _ => ?_
  refine .eatIf eatSemicolon_rereads (.node (hkind _) .nil (.nil _)) ?_
  refine .step (identifier_rereads _ _) fun label label' hlabel => ?_
  refine .step expectSemicolon_rereads fun _ _ _ => ?_
  rw [hlabel.kind]
  split
  · exact .node (hkind _) .nil (.nil _)
  · exact .refuse

theorem returnStatement_rereads (hg : g.Rereads f g') :
    Rereads f (returnStatement g) (returnStatement g') := by
  refine .position fun start start' => .step advance_rereads fun _ _ _ => ?_
  refine .eatIf eatSemicolon_rereads (.node nofun .nil (.nil _)) ?_
  refine .step (allowingIn_rereads (expression_rereads hg)) fun value value' hvalue => ?_
  exact .step expectSemicolon_rereads fun _ _ _ => .node nofun (.singleton hvalue) (by grind)

theorem throwStatement_rereads (hg : g.Rereads f g') :
    Rereads f (throwStatement g) (throwStatement g') := by
  refine .position fun start start' => .step advance_rereads fun _ _ _ => ?_
  refine .token fun kind span span' new _ => .ite .refuse ?_
  refine .step (allowingIn_rereads (expression_rereads hg)) fun value value' hvalue => ?_
  exact .step expectSemicolon_rereads fun _ _ _ => .node nofun (.singleton hvalue) (by grind)

theorem headedStatement_rereads (hg : g.Rereads f g') {kind : Kind} (hkind : kind ≠ .call) :
    Rereads f (headedStatement g kind) (headedStatement g' kind) := by
  refine .position fun start start' => .step advance_rereads fun _ _ _ => ?_
  refine .step (head_rereads hg) fun test test' htest => ?_
  refine .step (hg.statement _) fun body body' hbody => ?_
  exact .node hkind (.cons htest (.singleton hbody)) (by grind)

theorem declarationStatement_rereads {p p' : Parser Node} (hp : Rereads f p p') :
    Rereads f (declarationStatement p) (declarationStatement p') :=
  .position fun _ _ => .step hp fun _ _ hinner => .node nofun (.singleton hinner) (by grind)

theorem labeledFrom_rereads (hg : g.Rereads f g') (label : String) :
    Rereads f (labeledFrom g start label) (labeledFrom g' start' label) := by
  have hfunction : Rereads f (do functionDeclaration g false true (← position) [])
      (do functionDeclaration g' false true (← position) []) :=
    .position fun _ _ => functionDeclaration_retraces hg .nil (.nil _)
  refine .readIf (.isWord _) ?_ ?_
  · refine .step (declarationStatement_rereads hfunction) fun body body' hbody => ?_
    exact .node nofun (.singleton hbody) (by grind)
  · exact .step (hg.statement _) fun body body' hbody => .node nofun (.singleton hbody) (by grind)

theorem expressionEnd_retraces (hg : g.Rereads f g') {value value' : Node}
    (hvalue : f.Alike value value') (h : Within [value] Γ) :
    Retraces f F Γ (expressionEnd g start value) (expressionEnd g' start' value') := by
  refine .eatIf eatSemicolon_rereads (.node nofun (.singleton hvalue) (by grind)) ?_
  refine .token fun kind span span' new _ => .token fun kind₂ span₂ span₂' new₂ _ => ?_
  rw [show binaryOperator? { } ⟨kind, span', new⟩ = binaryOperator? { } ⟨kind, span, new⟩ from rfl]
  dsimp only
  split
  · refine .bind (hg.operators _ hvalue (by grind)) fun value value' hvalue => ?_
    exact .node nofun (.singleton hvalue) (by grind)
  · exact .refuse

theorem expressionStatement_rereads (hg : g.Rereads f g') :
    Rereads f (expressionStatement g start) (expressionStatement g' start') := by
  refine .step (allowingIn_rereads (expression_rereads hg)) fun value value' hvalue => ?_
  rw [hvalue.kind]
  split
  · refine .eatIf (eat_rereads _) (labeledFrom_rereads hg _).frame ?_
    exact expressionEnd_retraces hg hvalue (by grind)
  · exact expressionEnd_retraces hg hvalue (by grind)

theorem importExpressionStatement_rereads (hg : g.Rereads f g') :
    Rereads f (importExpressionStatement g start) (importExpressionStatement g' start') := by
  refine .step (expression_rereads hg) fun value value' hvalue => ?_
  refine .step (discard_rereads eatSemicolon_rereads) fun _ _ _ => ?_
  exact .node nofun (.singleton hvalue) (by grind)

/-! ## Statements that start with a word -/

/-- Where no `using` list starts, nothing has been read. -/
theorem usingDeclaration_none {c : Context} {s t : State}
    (h : usingDeclaration g start c s = .done none t) : t = s := by
  obtain ⟨following, s₁, hpeek, h⟩ := bind_done h
  cases hpeek
  obtain ⟨names, s₁, hnames, h⟩ := bind_done h
  obtain rfl : s₁ = s := by
    unfold namesSomething at hnames
    split at hnames <;> cases hnames <;> rfl
  split at h
  · cases h
    rfl
  · obtain ⟨_, _, -, h⟩ := bind_done h
    obtain ⟨_, _, -, h⟩ := bind_done h
    obtain ⟨_, _, -, h⟩ := bind_done h
    cases h

/-- Behind `await` the tokens of a `using` list are seen ahead. -/
theorem calm_next_of_await {s : State} (hs : s.On text)
    (hawait : s.reading.token.kind = .word "await")
    (husing : s.next.reading.token.kind = .word "using") (hcalm : s.Calm f) : s.next.Calm f := by
  have hhorizon : s.horizon = s.next.horizon := by
    have hother : s.next.reading.token.kind ≠ .word "await" := by
      rw [husing]
      decide
    rw [State.horizon, if_pos hawait, State.horizon, if_neg hother]
  have hle := hs.next.2.le
  exact fun x hlo hhi => hcalm x (by omega) (by omega)

theorem awaitStatement_retraces (hg : g.Rereads f g') :
    Retraces f (·.reading.token.kind = .word "await") Γ (awaitStatement g start)
      (awaitStatement g' start') := by
  refine .peekThen (fun s hs => by rw [hs]; rfl) fun kind span span' new => ?_
  dsimp only
  by_cases husing : kind = .word "using"
  · rw [if_pos (by simpa using husing), if_pos (by simpa using husing)]
    rintro c s t n hc hs ⟨hawait, hnext⟩ hΓ hrun
    have hkind : s.next.reading.token.kind = .word "using" := by rw [hnext, husing]
    obtain ⟨s₀, s₁, hstate, hrun⟩ := bind_done hrun
    cases hstate
    obtain ⟨_, s₁, hadvance, hrun⟩ := bind_done hrun
    cases hadvance
    obtain ⟨list, u, hlist, hrun⟩ := bind_done hrun
    have hretraces : Retraces f (·.reading.token.kind.looksAhead = true) []
        (usingDeclaration g start) (usingDeclaration g' start') := usingDeclaration_retraces hg
    obtain ⟨hmoves, htwin⟩ := hretraces c s.next u list hc hs.next.1.on
      (by dsimp only; rw [hkind]; rfl) (.nil _) hlist
    have hread {c' : Context} {s' : State} (hc' : c.Twin f c') (hs' : s.Twin f s')
        (hcalm : s.Calm f) (hcovers : Covers f s.next u (nodes list)) :=
      htwin c' s'.next hc'
        (hs'.next hs (hcalm.clear hs) fun hreach => by rw [hawait] at hreach; cases hreach)
        (calm_next_of_await hs hawait hkind hcalm) hcovers
    cases list with
    | some list =>
      cases hrun
      have hsites (span : Span) :
          sites text (nodes (Node.mk .declaration span [list])) = sites text (nodes (some list)) :=
        sites_mk (by nofun) _ _
      have hall : Moves text Γ s (nodes (some list)) t :=
        (Moves.next hs).trans (hmoves.mono (by simp))
      refine ⟨⟨hall.reaches, hall.horizon, by rw [hsites]; exact hall.found⟩,
        fun c' s' hc' hs' hcalm hcovers => ?_⟩
      obtain ⟨list', u', hlist', halike, hu⟩ := hread hc' hs' hcalm
        fun x hlo hhi hput => by
          rw [← hsites]
          exact hcovers x (Nat.le_trans hs.horizon_le_next hlo) hhi hput
      cases halike with
      | some halike =>
        exact ⟨_, u', bind_eq_done rfl (bind_eq_done rfl (bind_eq_done hlist' rfl)),
          .mk (by nofun) _ _ (.singleton halike), hu⟩
    | none =>
      obtain rfl := usingDeclaration_none hlist
      have hplain : Rereads f (expressionStatement g start) (expressionStatement g' start') :=
        expressionStatement_rereads hg
      obtain ⟨hmoves', htwin'⟩ := hplain.frame (F := fun _ => True) c s t n hc hs trivial hΓ hrun
      refine ⟨hmoves', fun c' s' hc' hs' hcalm hcovers => ?_⟩
      obtain ⟨list', u', hlist', halike, -⟩ := hread hc' hs' hcalm
        fun x hlo hhi _ => absurd hlo (Nat.not_le_of_gt hhi)
      cases halike
      obtain ⟨n', t', hrun', h⟩ := htwin' c' s' hc' hs' hcalm hcovers
      exact ⟨n', t', bind_eq_done rfl (bind_eq_done rfl (bind_eq_done hlist' hrun')), h⟩
  · rw [if_neg (by simpa using husing), if_neg (by simpa using husing)]
    exact (expressionStatement_rereads hg).frame

theorem wordStatement_retraces (hg : g.Rereads f g') (declarations : Bool)
    {marks marks' : List Node} (hmarks : f.AlikeAll marks marks') (h : Within marks Γ)
    (word : String) :
    Retraces f (·.reading.token.kind = .word word) Γ (wordStatement g declarations marks start word)
      (wordStatement g' declarations marks' start' word) := by
  unfold wordStatement
  split
  · exact (jumpStatement_rereads .breakStatement (by nofun)).frame
  · exact (jumpStatement_rereads .continueStatement (by nofun)).frame
  · refine .step advance_rereads fun _ _ _ => .step expectSemicolon_rereads fun _ _ _ => ?_
    exact .node nofun .nil (.nil _)
  · exact (doStatement_rereads hg).frame
  · exact (forStatement_rereads hg).frame
  · refine .position fun here here' => ?_
    refine .bind (functionDeclaration_retraces hg hmarks h) fun inner inner' hinner => ?_
    exact .node nofun (.singleton hinner) (by grind)
  · refine .bind (classFrom_retraces hg hmarks h) fun inner inner' hinner => ?_
    exact .node nofun (.singleton hinner) (by grind)
  · exact (ifStatement_rereads hg).frame
  · exact (returnStatement_rereads hg).frame
  · exact (switchStatement_rereads hg).frame
  · exact (throwStatement_rereads hg).frame
  · exact strayHandler_rereads.frame
  · exact strayHandler_rereads.frame
  · exact (tryStatement_rereads hg).frame
  · exact (headedStatement_rereads hg (by nofun)).frame
  · exact (headedStatement_rereads hg (by nofun)).frame
  · exact (declarationStatement_rereads (variableList_rereads hg _ _)).frame
  · refine .peek (fun s hs => by rw [hs]; rfl) fun kind span span' new => ?_
    rw [show followsLet ⟨kind, span', new⟩ = followsLet ⟨kind, span, new⟩ from rfl]
    refine .ite ?_ (.ite ?_ (.ite ?_ ?_))
    · exact (declarationStatement_rereads (variableList_rereads hg _ _)).frame
    · exact (declarationStatement_rereads (variableList_rereads hg _ _)).frame
    · refine .bind (.conseq (usingDeclaration_retraces hg) (fun s _ hs => by rw [hs]; rfl)
        (.refl _)) fun list list' hlist => ?_
      cases hlist with
      | some hlist => exact .node nofun (.singleton hlist) (by grind)
      | none => exact (expressionStatement_rereads hg).frame
    · by_cases hawait : (word == "await" && declarations) = true
      · rw [if_pos hawait, if_pos hawait]
        obtain rfl : word = "await" := by simpa using (Bool.and_eq_true_iff.mp hawait).1
        exact awaitStatement_retraces hg
      · rw [if_neg hawait, if_neg hawait]
        refine .ite (.position fun here here' => .step advance_rereads fun _ _ _ => ?_)
          (expressionStatement_rereads hg).frame
        refine .bind (functionDeclaration_retraces hg hmarks (by grind))
          fun inner inner' hinner => ?_
        exact .node nofun (.singleton hinner) (by grind)

theorem plainStatement_retraces (hg : g.Rereads f g') (declarations : Bool)
    {marks marks' : List Node} (hmarks : f.AlikeAll marks marks') (h : Within marks Γ) :
    Retraces f F Γ (plainStatement g declarations marks start)
      (plainStatement g' declarations marks' start') := by
  refine .look fun kind span span' new _ _ => ?_
  dsimp only
  split
  · exact .conseq (wordStatement_retraces hg _ hmarks h _) (fun s _ hs => by rw [hs]) (.refl _)
  · exact (blockStatement_rereads hg).frame
  · exact .step advance_rereads fun _ _ _ => .node nofun .nil (.nil _)
  · exact (expressionStatement_rereads hg).frame

end AmdModules.Script.Parser
