import AmdModules.Proofs.Syntax.Expression
import AmdModules.Script.Program

/-!
# The form of programs

Statements stand in statements, bodies and static blocks and at the top of a program, where imports
and exports may stand too. The tree of an accepted text is formed like that throughout
(`parse_formed`).
-/

set_option autoImplicit false

namespace AmdModules.Script

namespace Parser

variable {g : Grammar} {start : Nat}

/-! ## Parts of statements -/

/-- A statement of plain parts and statements. -/
theorem statementNode_gives {kind : Kind} {parts : List Node} (hkind : kind.role = .statement)
    (hparts : ∀ n ∈ parts, n.Is .plain ∨ n.Is .statement) :
    Gives (·.Is .statement) (node kind start parts) :=
  .node hkind (Kind.takes_plain hkind (by decide)) (by simp [Kind.takes, hkind]) hparts

theorem head_gives (hg : g.Gives) : Gives (·.Is .plain) (head g) :=
  .any fun _ => .bind (.allowingIn (expression_gives hg)) fun _ hinner => .any fun _ => .pure hinner

theorem blockStatement_gives (hg : g.Gives) : Gives (·.Is .statement) (blockStatement g) := by
  refine .any fun start => .bind (braced_gives hg false) fun items hitems => ?_
  exact .node (p := .statement) (q := .statement) rfl rfl rfl (by simpa using hitems)

theorem bracedBody_gives (hg : g.Gives) : Gives (·.Is .body) (bracedBody g) := by
  refine .any fun start => .bind (braced_gives hg false) fun items hitems => ?_
  exact .node (p := .statement) (q := .statement) rfl rfl rfl (by simpa using hitems)

theorem declarator_gives (hg : g.Gives) (lexical inHead strictConst : Bool) :
    Gives (·.Is .plain) (declarator g lexical inHead strictConst) := by
  refine .any fun start => .bind (hg.binding lexical) fun name hname => ?_
  have halone : Gives (·.Is .plain) (node .declarator start [name]) :=
    .plainNode rfl (by simpa using hname)
  refine .any fun b => .any fun b' => .ite halone (.any fun b'' => .ite ?_ ?_)
  · exact .bind hg.assignment fun value hvalue => .plainNode rfl (by simp [hname, hvalue])
  · split
    · exact halone
    · exact .ite halone .refuse

theorem declarators_gives (hg : g.Gives) (lexical inHead strictConst : Bool) (limit : Nat) :
    Gives (∀ n ∈ ·, n.Is .plain) (declarators g lexical inHead strictConst limit) := by
  induction limit with
  | zero => exact .exhausted
  | succ limit ih =>
    refine .any fun b => .ite .nil ?_
    refine .bind (declarator_gives hg lexical inHead strictConst) fun first hfirst => ?_
    refine .any fun b' => .ite ?_ (.pure (by simpa using hfirst))
    exact .bind ih fun others hothers => .pure (by simpa [hfirst] using hothers)

theorem variableList_gives (hg : g.Gives) (keyword : String) (inHead : Bool) :
    Gives (·.Is .plain) (variableList g keyword inHead) := by
  refine .any fun start => .any fun _ => .any fun strict => ?_
  refine .bind (.within (declarators_gives hg _ inHead _ _) (fun _ => rfl) fun _ h => h) ?_
  intro items hitems
  refine .ite (.plainNode rfl hitems) (.any fun b => .ite (.plainNode rfl hitems) ?_)
  exact .any fun _ => .any fun _ => .any fun _ => .plainNode rfl hitems

theorem usingDeclaration_gives (hg : g.Gives) :
    Gives (∀ n ∈ ·, n.Is .plain) (usingDeclaration g start) := by
  refine .any fun following => .any fun b => .ite (.pure (by simp)) (.any fun _ => ?_)
  refine .bind (declarators_gives hg false false false _) fun items hitems => .any fun _ => ?_
  refine .bind (.plainNode rfl hitems) fun list hlist => ?_
  exact .pure (by simpa using hlist)

/-! ## Loops -/

theorem loopTail_gives (hg : g.Gives) : Gives (∀ n ∈ ·, n.Is .plain) (loopTail g) := by
  have hstep {test : List Node} (htest : ∀ n ∈ test, n.Is .plain) :
      Gives (∀ n ∈ ·, n.Is .plain) (do
        if ← isMark ")" then return test
        else
          let step ← allowingIn (expression g)
          return test ++ [step]) := by
    refine .any fun b => .ite (.pure htest) ?_
    exact .bind (.allowingIn (expression_gives hg)) fun step hstep => .pure (by grind)
  refine .any fun b => .ite (.bind (.nil (R := (·.Is .plain))) fun test htest => hstep htest) ?_
  refine .bind (.allowingIn (expression_gives hg)) fun test htest => .any fun _ => ?_
  refine .bind (.pure (P := (∀ n ∈ ·, n.Is .plain)) ?_) fun test htest => hstep htest
  simpa using htest

/-- What the head of a loop gives: the kind of a statement, and plain parts. -/
def IsLoopHead (head : Kind × List Node) : Prop :=
  head.1.role = .statement ∧ ∀ n ∈ head.2, n.Is .plain

theorem loopOver_gives (hg : g.Gives) (await : Bool) {left : Node} (hleft : left.Is .plain) :
    Gives IsLoopHead (loopOver g await left) := by
  refine .any fun b => .ite ?_ (.any fun _ => ?_)
  · refine .bind (.allowingIn hg.assignment) fun right hright => ?_
    exact .pure ⟨rfl, by simp [hleft, hright]⟩
  · refine .bind (.allowingIn (expression_gives hg)) fun right hright => ?_
    exact .pure ⟨rfl, by simp [hleft, hright]⟩

theorem loopHead_gives (hg : g.Gives) (await : Bool) : Gives IsLoopHead (loopHead g await) := by
  have htail (first : List Node) (hfirst : ∀ n ∈ first, n.Is .plain) :
      Gives IsLoopHead (do return (.forLoop, first ++ (← loopTail g))) :=
    .bind (loopTail_gives hg) fun tail htail => .pure ⟨rfl, by grind⟩
  refine .any fun t => .any fun following => .ite ?_ (.any fun b => .ite ?_ ?_)
  · refine .bind (variableList_gives hg _ true) fun list hlist => .any fun b => .any fun b' => ?_
    refine .ite (loopOver_gives hg await hlist) (.any fun _ => ?_)
    exact htail [list] (by simpa using hlist)
  · exact htail [] (by simp)
  · refine .bind (.within (expression_gives hg) (fun _ => rfl) fun _ h => h) fun first hfirst => ?_
    refine .any fun next => .any fun b => .ite ?_ (.any fun b' => .any fun b'' => .ite ?_ ?_)
    · refine .bind (bindingIdentifier_gives false) fun name hname => ?_
      have hdeclarator : (Node.mk .declarator name.span [name]).Is .plain :=
        .ofPlain rfl (by simpa using hname)
      refine .bind (.plainNode rfl (by simpa using hdeclarator)) ?_
      exact fun list hlist => loopOver_gives hg await hlist
    · split
      · rename_i target htarget
        exact loopOver_gives hg await (asPattern_is first hfirst htarget)
      · exact .refuse
    · exact .any fun _ => htail [first] (by simpa using hfirst)

theorem forStatement_gives (hg : g.Gives) : Gives (·.Is .statement) (forStatement g) := by
  refine .any fun start => .any fun _ => .any fun await => .any fun _ => ?_
  refine .bind (.within (loopHead_gives hg await) (fun _ => rfl) fun _ h => h) ?_
  rintro ⟨kind, parts⟩ ⟨hkind, hparts⟩
  refine .any fun _ => .bind (hg.statement false) fun body hbody => .ite .refuse ?_
  exact statementNode_gives hkind (by grind)

/-! ## Statements -/

theorem doStatement_gives (hg : g.Gives) : Gives (·.Is .statement) (doStatement g) := by
  refine .any fun start => .any fun _ => .bind (hg.statement false) fun body hbody => ?_
  refine .any fun _ => .bind (head_gives hg) fun test htest => .any fun _ => ?_
  exact statementNode_gives rfl (by simp [htest, hbody])

theorem ifStatement_gives (hg : g.Gives) : Gives (·.Is .statement) (ifStatement g) := by
  refine .any fun start => .any fun _ => .bind (head_gives hg) fun test htest => ?_
  refine .bind (hg.statement false) fun yes hyes => .any fun b => .ite ?_ ?_
  · refine .bind (hg.statement false) fun no hno => ?_
    exact statementNode_gives rfl (by simp [htest, hyes, hno])
  · exact statementNode_gives rfl (by simp [htest, hyes])

theorem switchCases_gives (hg : g.Gives) (hadDefault : Bool) (limit : Nat) :
    Gives (∀ n ∈ ·, n.Is .clause) (switchCases g hadDefault limit) := by
  induction limit generalizing hadDefault with
  | zero => exact .exhausted
  | succ limit ih =>
    refine .any fun start => .any fun isCase => .any fun isDefault => .ite .nil (.ite .refuse ?_)
    have hcase {test : List Node} (htest : ∀ n ∈ test, n.Is .plain) :
        Gives (∀ n ∈ ·, n.Is .clause) (do
          expect ":"
          let items ← manyUntil
            (do return (← isMarkOrEnd "\x7d") || (← isWord "case") || (← isWord "default"))
            (do return [← g.parse (.statement true)]) g.limit
          let first ← node (if isCase then .switchCase else .defaultCase) start (test ++ items)
          return first :: (← switchCases g (hadDefault || isDefault) limit)) := by
      refine .any fun _ => .bind (.manyUntil (.singleton (hg.statement true)) _) ?_
      intro items hitems
      have hparts : ∀ n ∈ test ++ items, n.Is .plain ∨ n.Is .statement := by grind
      have hfirst : Gives (·.Is .clause)
          (node (if isCase then .switchCase else .defaultCase) start (test ++ items)) := by
        split
        · exact .node rfl rfl rfl hparts
        · exact .node rfl rfl rfl hparts
      refine .bind hfirst fun first hfirst => .bind (ih _) fun others hothers => ?_
      exact .pure (by simpa [hfirst] using hothers)
    refine .any fun _ => .ite ?_ (.bind (.nil (R := (·.Is .plain))) fun test htest => hcase htest)
    exact .bind (.singleton (.allowingIn (expression_gives hg))) fun test htest => hcase htest

theorem switchStatement_gives (hg : g.Gives) : Gives (·.Is .statement) (switchStatement g) := by
  refine .any fun start => .any fun _ => .bind (head_gives hg) fun value hvalue => .any fun _ => ?_
  refine .bind (switchCases_gives hg false _) fun cases hcases => .any fun _ => ?_
  exact .node (p := .plain) (q := .clause) rfl rfl rfl (by grind)

theorem catchClause_gives (hg : g.Gives) : Gives (∀ n ∈ ·, n.Is .handler) (catchClause g) := by
  refine .any fun start => .any fun b => .ite ?_ .nil
  have hbody {name : List Node} (hname : ∀ n ∈ name, n.Is .plain) :
      Gives (∀ n ∈ ·, n.Is .handler) (do
        let body ← bracedBody g
        return [← node .catchClause start (name ++ [body])]) := by
    refine .bind (bracedBody_gives hg) fun body hbody => .singleton ?_
    exact .node (p := .plain) (q := .body) rfl rfl rfl (by grind)
  have hname : Gives (∀ n ∈ ·, n.Is .plain) (do
      let name ← g.parse (.binding false)
      expect ")"
      return [name]) :=
    .bind (hg.binding false) fun name hname => .any fun _ => .pure (by simpa using hname)
  refine .any fun b' => .ite ?_ ?_
  · exact .bind hname fun name hname => hbody hname
  · exact .bind (.nil (R := (·.Is .plain))) fun name hname => hbody hname

theorem finallyBlock_gives (hg : g.Gives) : Gives (∀ n ∈ ·, n.Is .body) (finallyBlock g) :=
  .any fun _ => .ite (.singleton (bracedBody_gives hg)) .nil

theorem tryStatement_gives (hg : g.Gives) : Gives (·.Is .statement) (tryStatement g) := by
  refine .any fun start => .any fun _ => .bind (bracedBody_gives hg) fun body hbody => ?_
  refine .bind (catchClause_gives hg) fun handler hhandler => ?_
  refine .bind (finallyBlock_gives hg) fun final hfinal => ?_
  exact .node (p := .body) (q := .handler) rfl rfl rfl (by grind)

theorem strayHandler_gives : Gives (·.Is .statement) (strayHandler g) := by
  refine .any fun _ => .any fun t => .any fun _ => .any fun _ => .pure ?_
  exact .of (p := .plain) (q := .plain) rfl rfl rfl (by simpa using .invalid t.span)

theorem jumpStatement_gives {kind : Option String → Kind}
    (hkind : ∀ label, (kind label).role = .statement) :
    Gives (·.Is .statement) (jumpStatement kind) := by
  refine .any fun start => .any fun _ => .any fun b => .ite ?_ ?_
  · exact statementNode_gives (hkind none) (by simp)
  · refine .any fun label => .any fun _ => ?_
    split
    · exact statementNode_gives (hkind _) (by simp)
    · exact .refuse

theorem returnStatement_gives (hg : g.Gives) : Gives (·.Is .statement) (returnStatement g) := by
  refine .any fun start => .any fun _ => .any fun b => .ite ?_ ?_
  · exact statementNode_gives rfl (by simp)
  · refine .bind (.allowingIn (expression_gives hg)) fun value hvalue => .any fun _ => ?_
    exact statementNode_gives rfl (by simp [hvalue])

theorem throwStatement_gives (hg : g.Gives) : Gives (·.Is .statement) (throwStatement g) := by
  refine .any fun start => .any fun _ => .any fun t => .ite .refuse ?_
  refine .bind (.allowingIn (expression_gives hg)) fun value hvalue => .any fun _ => ?_
  exact statementNode_gives rfl (by simp [hvalue])

theorem headedStatement_gives (hg : g.Gives) {kind : Kind} (hkind : kind.role = .statement) :
    Gives (·.Is .statement) (headedStatement g kind) := by
  refine .any fun start => .any fun _ => .bind (head_gives hg) fun test htest => ?_
  refine .bind (hg.statement false) fun body hbody => ?_
  exact statementNode_gives hkind (by simp [htest, hbody])

/-- A declaration as a statement. -/
theorem declaration_gives {p : Parser Node} (hp : Gives (·.Is .plain) p) :
    Gives (·.Is .statement) (do
      let inner ← p
      node .declaration start [inner]) :=
  .bind hp fun inner hinner => statementNode_gives rfl (by simp [hinner])

theorem labeledFrom_gives (hg : g.Gives) (label : String) :
    Gives (·.Is .statement) (labeledFrom g start label) := by
  have hbody {p : Parser Node} (hp : Gives (·.Is .statement) p) : Gives (·.Is .statement) (do
      let body ← p
      node (.labeled label) start [body]) :=
    .bind hp fun body hbody => statementNode_gives rfl (by simp [hbody])
  refine .any fun b => .ite (hbody (.any fun here => declaration_gives ?_)) (hbody (hg.statement _))
  exact .any fun here' => functionDeclaration_gives hg false true here' (by simp)

theorem expressionEnd_gives (hg : g.Gives) {value : Node} (hvalue : value.Is .plain) :
    Gives (·.Is .statement) (expressionEnd g start value) := by
  refine .any fun b => .ite (statementNode_gives rfl (by simp [hvalue])) ?_
  refine .any fun t => .any fun t' => ?_
  split
  · refine .bind (hg.operators 0 hvalue) fun longer hlonger => ?_
    exact statementNode_gives rfl (by simp [hlonger])
  · exact .refuse

theorem expressionStatement_gives (hg : g.Gives) :
    Gives (·.Is .statement) (expressionStatement g start) := by
  refine .bind (.allowingIn (expression_gives hg)) fun value hvalue => ?_
  split
  · exact .any fun b => .ite (labeledFrom_gives hg _) (expressionEnd_gives hg hvalue)
  · exact expressionEnd_gives hg hvalue

theorem importExpressionStatement_gives (hg : g.Gives) :
    Gives (·.Is .statement) (importExpressionStatement g start) := by
  refine .bind (expression_gives hg) fun value hvalue => .any fun _ => ?_
  exact statementNode_gives rfl (by simp [hvalue])

theorem awaitStatement_gives (hg : g.Gives) : Gives (·.Is .statement) (awaitStatement g start) := by
  refine .any fun following => .ite (.any fun s => .any fun _ => ?_) (expressionStatement_gives hg)
  refine .bind (usingDeclaration_gives hg) fun list? hlist => ?_
  cases list? with
  | some list => exact statementNode_gives rfl (by simp [hlist list rfl])
  | none => exact .any fun _ => expressionStatement_gives hg

theorem wordStatement_gives (hg : g.Gives) (declarations : Bool) {marks : List Node}
    (hmarks : ∀ n ∈ marks, n.Is .plain) (word : String) :
    Gives (·.Is .statement) (wordStatement g declarations marks start word) := by
  have hvariables (keyword : String) :
      Gives (·.Is .statement) (declarationStatement (variableList g keyword false)) :=
    .any fun start => declaration_gives (variableList_gives hg keyword false)
  have hfunction (async : Bool) (here : Nat) :
      Gives (·.Is .plain) (functionDeclaration g async true here marks) :=
    functionDeclaration_gives hg async true here hmarks
  unfold wordStatement
  split
  · exact jumpStatement_gives fun _ => rfl
  · exact jumpStatement_gives fun _ => rfl
  · exact .any fun _ => .any fun _ => statementNode_gives rfl (by simp)
  · exact doStatement_gives hg
  · exact forStatement_gives hg
  · exact .any fun here => declaration_gives (hfunction false here)
  · exact declaration_gives (classFrom_gives hg true start hmarks)
  · exact ifStatement_gives hg
  · exact returnStatement_gives hg
  · exact switchStatement_gives hg
  · exact throwStatement_gives hg
  · exact strayHandler_gives
  · exact strayHandler_gives
  · exact tryStatement_gives hg
  · exact headedStatement_gives hg rfl
  · exact headedStatement_gives hg rfl
  · exact hvariables "var"
  · refine .any fun following => .ite (hvariables "const") (.ite (hvariables "let") (.ite ?_ ?_))
    · refine .bind (usingDeclaration_gives hg) fun list? hlist => ?_
      cases list? with
      | some list => exact statementNode_gives rfl (by simp [hlist list rfl])
      | none => exact expressionStatement_gives hg
    · refine .ite (awaitStatement_gives hg) (.ite ?_ (expressionStatement_gives hg))
      exact .any fun here => .any fun _ => declaration_gives (hfunction true here)

theorem plainStatement_gives (hg : g.Gives) (declarations : Bool) {marks : List Node}
    (hmarks : ∀ n ∈ marks, n.Is .plain) :
    Gives (·.Is .statement) (plainStatement g declarations marks start) := by
  refine .any fun t => ?_
  split
  · exact wordStatement_gives hg declarations hmarks _
  · exact blockStatement_gives hg
  · exact .any fun _ => statementNode_gives rfl (by simp)
  · exact expressionStatement_gives hg

/-! ## Imports and exports -/

theorem attributes_gives (hg : g.Gives) : Gives (∀ n ∈ ·, n.Is .plain) (attributes g) := by
  refine .any fun t => .ite .nil (.any fun b => .any fun b' => .ite ?_ .nil)
  exact .any fun b'' => .ite (.singleton (objectLiteral_gives hg)) .refuse

theorem fromClause_gives (hg : g.Gives) : Gives (∀ n ∈ ·, n.Is .plain) (fromClause g) := by
  refine .any fun _ => .any fun _ => .bind (attributes_gives hg) fun parts hparts => ?_
  exact .any fun _ => .pure hparts

/-- An import or export of plain parts. -/
theorem itemNode_gives {kind : Kind} {parts : List Node} (hkind : kind.role = .item)
    (hparts : ∀ n ∈ parts, n.Is .plain) : Gives (·.Is .item) (node kind start parts) :=
  have htakes := Kind.takes_plain hkind (by decide)
  .node hkind htakes htakes fun n hn => .inl (hparts n hn)

theorem importDeclaration_gives (hg : g.Gives) : Gives (·.Is .item) (importDeclaration g) := by
  refine .any fun start => .any fun _ => .any fun _ => .any fun t => ?_
  have hfrom : Gives (·.Is .item) (do
      importedNames g
      let parts ← fromClause g
      node .importDeclaration start parts) :=
    .any fun _ => .bind (fromClause_gives hg) fun _ hparts => itemNode_gives rfl hparts
  split
  · refine .any fun _ => .bind (attributes_gives hg) fun parts hparts => ?_
    exact .any fun _ => itemNode_gives rfl hparts
  · refine .any fun t' => .any fun b => .ite (.any fun _ => .any fun b' => ?_) hfrom
    exact .ite (.any fun _ => hfrom) hfrom

theorem exportDefaultFrom_gives (hg : g.Gives) {marks : List Node}
    (hmarks : ∀ n ∈ marks, n.Is .plain) : Gives (·.Is .item) (exportDefaultFrom g start marks) := by
  refine .bind (decorators_gives hg) fun later hlater => .any fun following => ?_
  have hall : ∀ n ∈ marks ++ later, n.Is .plain := by grind
  have hinner {p : Parser Node} (hp : Gives (·.Is .plain) p) : Gives (·.Is .item) (do
      let inner ← p
      node .exportDefault start [inner]) :=
    .bind hp fun inner hinner => itemNode_gives rfl (by simpa using hinner)
  refine .any fun b => .ite ?_ (.any fun b' => .ite ?_ (.any fun b'' => .ite ?_ ?_))
  · exact .any fun here => hinner (classFrom_gives hg false here hall)
  · exact .any fun here => hinner (functionDeclaration_gives hg false false here hall)
  · refine .any fun here => .any fun _ => ?_
    exact hinner (functionDeclaration_gives hg true false here hall)
  · refine .bind (.allowingIn hg.assignment) fun value hvalue => .any fun _ => ?_
    exact itemNode_gives rfl (by simpa using hvalue)

theorem exportedNames_gives (hg : g.Gives) (first : Bool) :
    Gives (·.Is .item) (exportedNames g start first) := by
  have hfrom : Gives (·.Is .item) (do
      let parts ← fromClause g
      node .exportNames start parts) :=
    .bind (fromClause_gives hg) fun _ hparts => itemNode_gives rfl hparts
  have hnames : Gives (·.Is .item) (do
      if first && (← eat "*") then
        expectWord "as"
        discard exportedName
        let parts ← fromClause g
        node .exportNames start parts
      else
        namesInBraces g exportedPair
        if ← isWord "from" then
          let parts ← fromClause g
          node .exportNames start parts
        else
          discard eatSemicolon
          node .exportNames start []) := by
    refine .any fun b => .ite (.any fun _ => .any fun _ => hfrom) (.any fun _ => .any fun b' => ?_)
    exact .ite hfrom (.any fun _ => itemNode_gives rfl (by simp))
  exact .any fun b => .ite hfrom (.ite (.any fun _ => hnames) hnames)

theorem exportDeclaration_gives (hg : g.Gives) {marks : List Node}
    (hmarks : ∀ n ∈ marks, n.Is .plain) : Gives (·.Is .item) (exportDeclaration g marks) := by
  refine .any fun start => .any fun _ => .any fun _ => .any fun b => .ite .refuse ?_
  refine .any fun star => .ite (.any fun b' => .ite ?_ ?_) (.any fun default => .ite ?_ ?_)
  · exact .bind (fromClause_gives hg) fun _ hparts => itemNode_gives rfl hparts
  · exact .any fun _ => .any fun _ => exportedNames_gives hg true
  · exact .any fun b' => .ite (exportedNames_gives hg true) (exportDefaultFrom_gives hg hmarks)
  · refine .bind (decorators_gives hg) fun later hlater => .ite .refuse ?_
    refine .any fun t => .any fun following => ?_
    have hall : ∀ n ∈ marks ++ later, n.Is .plain := by grind
    have hdeclared {p : Parser Node} (hp : Gives (·.Is .plain) p) : Gives (·.Is .item) (do
        let inner ← p
        node .exportDeclaration start [inner]) :=
      .bind hp fun inner hinner => itemNode_gives rfl (by simpa using hinner)
    have hvariables (keyword : String) := hdeclared (variableList_gives hg keyword false)
    split
    · exact hdeclared (classFrom_gives hg true _ hall)
    · exact hdeclared (functionDeclaration_gives hg false true _ hall)
    · exact hvariables "var"
    · exact hvariables "const"
    · refine .ite (.any fun _ => ?_) (.ite (hvariables "let") (.any fun _ => ?_))
      · exact hdeclared (functionDeclaration_gives hg true true _ hall)
      · exact exportedNames_gives hg true
    · exact exportedNames_gives hg false

/-! ## The grammar -/

/-- Where imports and exports may stand, one of them or a statement; elsewhere a statement. -/
theorem statement_is (hg : g.Gives) (declarations : Bool) {c : Context} (hc : c.markup = false)
    {s s' : State} {n : Node} (hrun : statement g declarations c s = .done n s') :
    n.Is .statement ∨ c.topLevel = true ∧ n.Is .item := by
  -- what follows the context is read where no import or export may stand
  have hgives : Gives (fun n => n.Is .statement ∨ c.topLevel = true ∧ n.Is .item) (do
      let marks ← decorators g
      if ← isWord "import" then
        let following ← peek
        if following.kind == .mark "(" || following.kind == .mark "." then
          importExpressionStatement g s.reading.token.span.start
        else if c.topLevel then importDeclaration g
        else refuse
      else if ← isWord "export" then
        if c.topLevel && marks.isEmpty then exportDeclaration g marks else refuse
      else plainStatement g declarations marks s.reading.token.span.start) := by
    refine .bind (decorators_gives hg) fun marks hmarks => .any fun b => .ite ?_ ?_
    · refine .any fun following => .ite ?_ ?_
      · exact (importExpressionStatement_gives hg).mono fun _ => .inl
      · split
        · rename_i htop
          exact (importDeclaration_gives hg).mono fun _ h => .inr ⟨htop, h⟩
        · exact .refuse
    · refine .any fun b' => .ite ?_ ?_
      · split
        · rename_i htop
          refine (exportDeclaration_gives hg hmarks).mono fun _ h => .inr ⟨?_, h⟩
          exact (Bool.and_eq_true_iff.mp htop).1
        · exact .refuse
      · exact (plainStatement_gives hg declarations hmarks).mono fun _ => .inl
  exact hgives { c with topLevel := false } s hc rfl n s' hrun

theorem statement_gives (hg : g.Gives) (declarations : Bool) :
    Gives (·.Is .statement) (statement g declarations) := by
  intro c s hc ht n s' hrun
  rcases statement_is hg declarations hc hrun with h | ⟨htop, -⟩
  · exact h
  · rw [ht] at htop
    cases htop

end Parser

/-- **What the grammar gives**, however often it is unrolled. -/
theorem grammar_gives (n : Nat) : (grammar n).Gives := by
  induction n with
  | zero =>
    exact {
      statement := fun _ => .exhausted
      assignment := .exhausted
      unary := .exhausted
      constructed := .exhausted
      leftHandSide := .exhausted
      binding := fun _ => .exhausted
      operators := fun _ _ _ => .exhausted }
  | succ n ih =>
    exact {
      statement := Parser.statement_gives ih
      assignment := Parser.assignment_gives ih
      unary := Parser.unary_gives ih
      constructed := Parser.constructed_gives ih
      leftHandSide := Parser.leftHandSide_gives ih
      binding := Parser.binding_gives ih
      operators := fun floor _ hleft => Parser.operators_gives ih floor hleft }

/-- What the whole grammar reads as a statement is one, or an import or export. -/
theorem grammar_statement (n : Nat) {c : Context} (hc : c.markup = false) {s s' : State}
    {m : Node} (hrun : (grammar n).parse (.statement true) c s = .done m s') :
    m.Is .statement ∨ m.Is .item := by
  cases n with
  | zero => cases hrun
  | succ n => exact (Parser.statement_is (grammar_gives n) true hc hrun).imp_right And.right

/-- **The tree of an accepted text is well-formed**: a program of statements, imports and
exports. -/
theorem parse_formed {text : List Char} {dialect : Dialect} {program : Program}
    (hmarkup : dialect.markup = false) (h : parse dialect text = some program) :
    program.root.Is .program := by
  unfold parse at h
  dsimp only at h
  split at h
  · rename_i items s hrun
    obtain rfl := Option.some.inj h
    have hitems : ∀ item ∈ items, item.Is .item ∨ item.Is .statement := by
      refine Parser.manyUntil_all (fun s as s' hrun => ?_) _ _ hrun
      obtain ⟨m, s₁, hstatement, hrun⟩ := Parser.bind_done hrun
      cases hrun
      simpa using (grammar_statement _ hmarkup hstatement).symm
    cases s.inModule with
    | true => exact .of rfl rfl rfl hitems
    | false => exact .of rfl rfl rfl hitems
  · cases h
  · cases h

end AmdModules.Script
