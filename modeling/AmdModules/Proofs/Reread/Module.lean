import AmdModules.Proofs.Layout.Module
import AmdModules.Proofs.Reread.Statement

/-!
# Imports and exports of a filled text

Behind `export default` the parser looks past a comma, which it does nowhere else. A list of names
follows there, and nothing is put in into it.
-/

set_option autoImplicit false

namespace AmdModules.Script.Parser

open Text Yields Mirrors
open Filling (AlikeAll)

variable {text : List Char} {f : Filling text} {g g' : Grammar} {F : State → Prop} {Γ : List Node}
  {start start' : Nat}

/-! ## Imports -/

theorem exportedName_rereads : Rereads f exportedName exportedName := by
  refine .token fun kind span span' new _ => ?_
  dsimp only
  split
  · exact (leaf_rereads (by nofun)).frame
  · exact (leaf_rereads (by nofun)).frame
  · exact .refuse

theorem moduleString_rereads : Rereads f moduleString moduleString := by
  refine .token fun kind span span' new _ => ?_
  dsimp only
  split
  · exact advance_rereads.frame
  · exact .refuse

theorem attributes_rereads (hg : g.Rereads f g') : Rereads f (attributes g) (attributes g') := by
  refine .token fun kind span span' new _ => .ite nil_rereads.frame ?_
  refine .step (eatWord_rereads _) fun b b' hb => .step (eatWord_rereads _) fun d d' hd => ?_
  obtain rfl : b' = b := hb
  obtain rfl : d' = d := hd
  refine .ite (.readIf (.isMark _) ?_ .refuse) nil_rereads.frame
  exact (singleton_rereads (objectLiteral_rereads hg)).frame

theorem fromClause_rereads (hg : g.Rereads f g') : Rereads f (fromClause g) (fromClause g') := by
  refine .step (expectWord_rereads _) fun _ _ _ => .step moduleString_rereads fun _ _ _ => ?_
  refine .step (attributes_rereads hg) fun parts parts' hparts => ?_
  exact .step expectSemicolon_rereads fun _ _ _ => .pure hparts (by grind)

theorem importedName_rereads : Rereads f importedName importedName := by
  refine .step exportedName_rereads fun name name' hname => .eatIf (eatWord_rereads _) ?_ ?_
  · exact (discard_rereads (bindingIdentifier_rereads _)).frame
  · refine .context fun c arrow forgiving _ _ => ?_
    rw [hname.kind]
    split
    · exact .ite .refuse (.pure trivial (.nil _))
    · exact .refuse

theorem namesInBraces_rereads {item : Parser Unit} (hg : g.Rereads f g')
    (hitem : Rereads f item item) : Rereads f (namesInBraces g item) (namesInBraces g' item) := by
  have hnames : Rereads f (do
      item
      separator "\x7d"
      return ([] : List Node)) (do
      item
      separator "\x7d"
      return ([] : List Node)) := by
    refine .step hitem fun _ _ _ => .step (separator_rereads _) fun _ _ _ => ?_
    exact .pure .nil (.nil _)
  refine .step (expect_rereads _) fun _ _ _ => ?_
  refine .step (discard_rereads (manyUntil_rereads (.isMarkOrEnd _) hnames hg.limit))
    fun _ _ _ => ?_
  exact (expect_rereads _).frame

theorem importedNames_rereads (hg : g.Rereads f g') :
    Rereads f (importedNames g) (importedNames g') := by
  refine .eatIf (eat_rereads _) ?_ (.readIf (.isMark _) ?_ (.pure trivial (.nil _)))
  · refine .step (expectWord_rereads _) fun _ _ _ => ?_
    exact (discard_rereads (bindingIdentifier_rereads _)).frame
  · exact (namesInBraces_rereads hg importedName_rereads).frame

theorem importDeclaration_rereads (hg : g.Rereads f g') :
    Rereads f (importDeclaration g) (importDeclaration g') := by
  refine .position fun start start' => .step enterModule_rereads fun _ _ _ => ?_
  refine .step (expectWord_rereads _) fun _ _ _ => .token fun kind span span' new _ => ?_
  dsimp only
  split
  · refine .step advance_rereads fun _ _ _ => ?_
    refine .step (attributes_rereads hg) fun parts parts' hparts => ?_
    exact .step expectSemicolon_rereads fun _ _ _ => .node nofun hparts (by grind)
  · have hnames {F : State → Prop} {Γ : List Node} : Retraces f F Γ (do
        importedNames g
        let parts ← fromClause g
        node .importDeclaration start parts) (do
        importedNames g'
        let parts ← fromClause g'
        node .importDeclaration start' parts) := by
      refine .step (importedNames_rereads hg) fun _ _ _ => ?_
      refine .step (fromClause_rereads hg) fun parts parts' hparts => ?_
      exact .node nofun hparts (by grind)
    refine .token fun kind₂ span₂ span₂' new₂ _ => .read .namesSomething fun b => .ite ?_ hnames
    refine .step (discard_rereads (bindingIdentifier_rereads _)) fun _ _ _ => ?_
    exact .read (.isWord _) fun b => .ite (.step (expect_rereads _) fun _ _ _ => hnames) hnames

/-! ## Exports -/

theorem exportedPair_rereads : Rereads f exportedPair exportedPair := by
  refine .step (discard_rereads exportedName_rereads) fun _ _ _ => .eatIf (eatWord_rereads _) ?_ ?_
  · exact (discard_rereads exportedName_rereads).frame
  · exact .pure trivial (.nil _)

theorem exportDefaultFrom_retraces (hg : g.Rereads f g') {marks marks' : List Node}
    (hmarks : f.AlikeAll marks marks') (h : Within marks Γ) :
    Retraces f F Γ (exportDefaultFrom g start marks) (exportDefaultFrom g' start' marks') := by
  refine .step (decorators_rereads hg) fun later later' hlater => ?_
  have hall := AlikeAll.append hmarks hlater
  have hheld : Within (marks ++ later) (nodes later ++ Γ) := by grind
  have hclass {F : State → Prop} : Retraces f F (nodes later ++ Γ) (do
        let inner ← classFrom g false (← position) (marks ++ later)
        node .exportDefault start [inner]) (do
        let inner ← classFrom g' false (← position) (marks' ++ later')
        node .exportDefault start' [inner]) := by
    refine .position fun here here' => ?_
    refine .bind (classFrom_retraces hg hall hheld) fun inner inner' hinner => ?_
    exact .node nofun (.singleton hinner) (by grind)
  have hfunction {F : State → Prop} : Retraces f F (nodes later ++ Γ) (do
        let inner ← functionDeclaration g false false (← position) (marks ++ later)
        node .exportDefault start [inner]) (do
        let inner ← functionDeclaration g' false false (← position) (marks' ++ later')
        node .exportDefault start' [inner]) := by
    refine .position fun here here' => ?_
    refine .bind (functionDeclaration_retraces hg hall hheld) fun inner inner' hinner => ?_
    exact .node nofun (.singleton hinner) (by grind)
  have hvalue {F : State → Prop} : Retraces f F (nodes later ++ Γ) (do
        let value ← allowingIn (g.parse .assignment)
        expectSemicolon
        node .exportDefault start [value]) (do
        let value ← allowingIn (g'.parse .assignment)
        expectSemicolon
        node .exportDefault start' [value]) := by
    refine .step (allowingIn_rereads hg.assignment) fun value value' hvalue => ?_
    exact .step expectSemicolon_rereads fun _ _ _ => .node nofun (.singleton hvalue) (by grind)
  refine .cases (·.reading.token.kind.looksAhead = true) ?_ ?_
  · refine .peek (fun s hs => hs.2) fun kind span span' new => ?_
    refine .readIf (.isWord _) hclass (.readIf (.isWord _) hfunction ?_)
    refine .read (.isWord _) fun b => .ite ?_ hvalue
    refine .position fun here here' => .step advance_rereads fun _ _ _ => ?_
    refine .bind (functionDeclaration_retraces hg hall (by grind)) fun inner inner' hinner => ?_
    exact .node nofun (.singleton hinner) (by grind)
  · -- behind any other token nothing is looked for
    refine .peekAny fun _ _ => .readIf (.isWord _) hclass (.readIf (.isWord _) hfunction ?_)
    refine .readThen (.isWord _) fun b => ?_
    cases b with
    | true =>
      refine .never fun c s t a _ hs => ?_
      obtain ⟨⟨-, hnot⟩, c', hasync⟩ := hs
      have hword : s.reading.token.kind = .word "async" := by simpa [isWord] using hasync
      exact absurd (by rw [hword]; rfl) hnot
    | false =>
      simp only [Bool.false_and, Bool.false_eq_true, ↓reduceIte]
      exact hvalue

/-- Names that are exported, behind a default or a star in front of them. -/
def exportedTail (g : Grammar) (start : Nat) (first : Bool) : Parser Node := do
  if first && (← eat "*") then
    expectWord "as"
    discard exportedName
    let parts ← fromClause g
    node .exportNames start parts
  else
    namesInBraces g exportedPair
    if ← isWord "from" then
      let parts ← fromClause g
      node .exportNames start parts
    else
      discard eatSemicolon
      node .exportNames start []

theorem exportedFrom_rereads (hg : g.Rereads f g') : Rereads f (do
    let parts ← fromClause g
    node .exportNames start parts) (do
    let parts ← fromClause g'
    node .exportNames start' parts) :=
  .step (fromClause_rereads hg) fun _ _ hparts => .node nofun hparts (by grind)

theorem exportedTail_rereads (hg : g.Rereads f g') (first : Bool) :
    Rereads f (exportedTail g start first) (exportedTail g' start' first) := by
  refine .step (eat_rereads _) fun b b' hb => ?_
  obtain rfl : b' = b := hb
  refine .ite ?_ ?_
  · refine .step (expectWord_rereads _) fun _ _ _ => ?_
    exact .step (discard_rereads exportedName_rereads) fun _ _ _ => (exportedFrom_rereads hg).frame
  · refine .step (namesInBraces_rereads hg exportedPair_rereads) fun _ _ _ => ?_
    refine .readIf (.isWord _) (exportedFrom_rereads hg).frame ?_
    exact .step (discard_rereads eatSemicolon_rereads) fun _ _ _ => .node nofun .nil (.nil _)

theorem exportedNames_eq (g : Grammar) (start : Nat) (first : Bool) :
    exportedNames g start first = (do
      if first && (← isWord "from") then do
        let parts ← fromClause g
        node .exportNames start parts
      else if first then do
        expect ","
        exportedTail g start first
      else exportedTail g start first) := by
  cases first <;> rfl

theorem exportedNames_rereads (hg : g.Rereads f g') (first : Bool) :
    Rereads f (exportedNames g start first) (exportedNames g' start' first) := by
  rw [exportedNames_eq, exportedNames_eq]
  refine .read (.isWord _) fun b => .ite (exportedFrom_rereads hg).frame (.ite ?_ ?_)
  · exact .step (expect_rereads _) fun _ _ _ => (exportedTail_rereads hg _).frame
  · exact (exportedTail_rereads hg _).frame

theorem exportDefaultFrom_shuns (hg : g.Rereads f g') (marks : List Node) :
    Shuns (exportDefaultFrom g start marks) := by
  have hrest (later : List Node) : Shuns (do
      let following ← peek
      if ← isWord "class" then
        let inner ← classFrom g false (← position) (marks ++ later)
        node .exportDefault start [inner]
      else if ← isWord "function" then
        let inner ← functionDeclaration g false false (← position) (marks ++ later)
        node .exportDefault start [inner]
      else if (← isWord "async") && following.kind == .word "function" && !following.onNewLine then
        let here ← position
        advance
        let inner ← functionDeclaration g true false here (marks ++ later)
        node .exportDefault start [inner]
      else
        let value ← allowingIn (g.parse .assignment)
        expectSemicolon
        node .exportDefault start [value]) :=
    .read .peek fun _ => .notWord (.notWord (.notWord
      (.bind (.within (fun _ => rfl) hg.shunsAssignment))))
  intro c s t n hc hs hrun
  obtain ⟨later, s₁, hlater, hbehind⟩ := bind_done hrun
  -- no decorator starts there
  rcases manyUntil_done (.notMark _) hlater with ⟨-, -, rfl⟩ | ⟨hmark, -⟩
  · exact hrest later c s₁ t n hc hs hbehind
  · have hnone : Outcome.done (!s.reading.token.kind == .mark "@") s = .done false s := hmark
    rw [hs] at hnone
    cases hnone

/-- Nothing is put in behind the comma in front of names that are exported. -/
theorem exportedNames_comma (hg : g.Rereads f g') {c : Context} {s t : State} {n : Node}
    (hc : c.Plain text) (hs : s.On text) (hcomma : s.reading.token.kind = .mark ",")
    (hrun : exportedNames g start true c s = .done n t) (hcovers : Covers f s t [n]) :
    Covers f s s.next [] := by
  rw [exportedNames_eq] at hrun
  obtain ⟨b, s₁, hword, hrun⟩ := bind_done hrun
  cases hword
  rw [hcomma] at hrun
  obtain ⟨_, s₂, hexpect, hrun⟩ := bind_done hrun
  obtain ⟨-, rfl⟩ := expect_done hexpect
  have htail : Rereads f (exportedTail g start true) (exportedTail g' start true) :=
    exportedTail_rereads hg true
  have hmoves := htail.moves hc hs.next.1.on hrun
  exact hmoves.covers_left hs (.nil s) hcovers

/-- Whether a token is a string. -/
def isStringKind : TokenKind → Bool
  | .string _ => true
  | _ => false

/-- Behind `export default`: a name that is exported from another module, or a declaration or
value. -/
theorem exportDefault_retraces (hg : g.Rereads f g') {marks marks' : List Node}
    (hmarks : f.AlikeAll marks marks') (h : Within marks Γ) :
    Retraces f F Γ (do
      if ← reexportsDefault then exportedNames g start true
      else exportDefaultFrom g start marks) (do
      if ← reexportsDefault then exportedNames g' start' true
      else exportDefaultFrom g' start' marks') := by
  have hpeek {α : Type} (yes no : Parser α) :
      (do if ← reexportsDefault then yes else no) = (token >>= fun t => peek >>= fun following =>
        if ((t.kind == .word "from" && isStringKind following.kind)
          || (t.kind == .mark ","
            && (following.kind == .mark "\x7b" || following.kind == .mark "*"))) = true
        then yes else no) := rfl
  rw [hpeek, hpeek]
  refine .look fun kind span span' new _ _ => ?_
  dsimp only
  by_cases hlook : kind.looksAhead = true
  · refine .peek (fun s hs => by rw [hs]; exact hlook) fun kind₂ span₂ span₂' new₂ => ?_
    exact .ite (exportedNames_rereads hg _).frame (exportDefaultFrom_retraces hg hmarks h)
  · have hfrom : (kind == .word "from") = false := by
      rw [beq_eq_false_iff_ne]
      rintro rfl
      exact hlook rfl
    by_cases hcomma : kind = .mark ","
    · -- only a list of names goes on behind a comma
      subst hcomma
      simp only [hfrom, Bool.false_and, Bool.false_or, beq_self_eq_true, Bool.true_and]
      rintro c s t n hc hs htoken hΓ hrun
      have hkind : s.reading.token.kind = .mark "," := by rw [htoken]
      obtain ⟨following, s₁, hpeeked, hrun⟩ := bind_done hrun
      cases hpeeked
      split at hrun
      · rename_i hnames
        obtain ⟨hmoves, htwin⟩ := (exportedNames_rereads hg true).frame (F := fun _ => True) c s t n
          hc hs trivial hΓ hrun
        refine ⟨hmoves, fun c' s' hc' hs' hcalm hcovers => ?_⟩
        have hnone := exportedNames_comma hg hc hs hkind hrun hcovers
        have hnext : s.next.Twin f s'.next := hs'.next hs (hcalm.clear hs) (hnone.quiet hs)
        have hclear := ((Moves.next hs).calm (.nil s) hcalm hnone).clear hs.next.1.on
        obtain ⟨n', t', hrun', hn⟩ := htwin c' s' hc' hs' hcalm hcovers
        refine ⟨n', t', bind_eq_done rfl ?_, hn⟩
        rw [(hnext.reading hclear).token.kind, if_pos hnames]
        exact hrun'
      · exact absurd hrun (exportDefaultFrom_shuns hg marks c s t n hc.forgiving hkind)
    · have hcomma' : (kind == .mark ",") = false := by simpa using hcomma
      refine .peekAny fun _ _ => ?_
      simp only [hfrom, hcomma', Bool.false_and, Bool.or_self, Bool.false_eq_true, ↓reduceIte]
      exact exportDefaultFrom_retraces hg hmarks h

theorem exportDeclaration_retraces (hg : g.Rereads f g') {marks marks' : List Node}
    (hmarks : f.AlikeAll marks marks') (h : Within marks Γ) :
    Retraces f F Γ (exportDeclaration g marks) (exportDeclaration g' marks') := by
  refine .position fun start start' => .step enterModule_rereads fun _ _ _ => ?_
  refine .step (expectWord_rereads _) fun _ _ _ => .readIf .atEnd .refuse ?_
  refine .eatIf (eat_rereads _) (.readIf (.isWord _) ?_ ?_) (.eatIf (eatWord_rereads _) ?_ ?_)
  · refine .step (fromClause_rereads hg) fun parts parts' hparts => ?_
    exact .node nofun hparts (by grind)
  · refine .step (expectWord_rereads _) fun _ _ _ => ?_
    exact .step (discard_rereads exportedName_rereads)
      fun _ _ _ => (exportedNames_rereads hg _).frame
  · exact exportDefault_retraces hg hmarks (by grind)
  · refine .step (decorators_rereads hg) fun later later' hlater => ?_
    have hempty : later'.isEmpty = later.isEmpty := AlikeAll.isEmpty_eq hlater
    rw [hmarks.isEmpty_eq, hempty]
    refine .ite .refuse (.look fun kind span span' new _ _ => ?_)
    dsimp only
    have hall := AlikeAll.append hmarks hlater
    have hheld : Within (marks ++ later) (nodes later ++ Γ) := by grind
    have hdeclared {F : State → Prop} {Γ : List Node} {p p' : Parser Node}
        (hp : Retraces f F Γ p p') : Retraces f F Γ (do
          let inner ← p
          node .exportDeclaration start [inner]) (do
          let inner ← p'
          node .exportDeclaration start' [inner]) :=
      .bind hp fun inner inner' hinner => .node nofun (.singleton hinner) (by grind)
    by_cases hlook : kind.looksAhead = true
    · refine .peek (fun s hs => by rw [hs]; exact hlook) fun kind₂ span₂ span₂' new₂ => ?_
      rw [show followsLet ⟨kind₂, span₂', new₂⟩ = followsLet ⟨kind₂, span₂, new₂⟩ from rfl]
      split
      · exact hdeclared (classFrom_retraces hg hall hheld)
      · exact hdeclared (functionDeclaration_retraces hg hall hheld)
      · exact hdeclared (variableList_rereads hg _ _).frame
      · exact hdeclared (variableList_rereads hg _ _).frame
      · refine .ite (.step advance_rereads fun _ _ _ => ?_) (.ite ?_ ?_)
        · exact hdeclared (functionDeclaration_retraces hg hall (by grind))
        · exact hdeclared (variableList_rereads hg _ _).frame
        · refine .step (discard_rereads (identifier_rereads _ _)) fun _ _ _ => ?_
          exact (exportedNames_rereads hg _).frame
      · exact (exportedNames_rereads hg _).frame
    · -- behind any other token nothing is looked for
      refine .peekAny fun _ _ => ?_
      cases kind
      case word => exact absurd rfl hlook
      all_goals exact (exportedNames_rereads hg _).frame

/-! ## The grammar -/

theorem statement_rereads (hg : g.Rereads f g') (declarations : Bool) :
    Rereads f (statement g declarations) (statement g' declarations) := by
  refine .position fun start start' => .context fun c arrow forgiving _ _ => .within { } ?_
  refine .step (decorators_rereads hg)
    fun marks marks' hmarks => .ifWord ?_ (.readIf (.isWord _) ?_ ?_)
  · refine .peek (fun s hs => by rw [hs]; rfl) fun kind span span' new => ?_
    refine .ite (importExpressionStatement_rereads hg).frame ?_
    exact .ite (importDeclaration_rereads hg).frame .refuse
  · have hempty : marks'.isEmpty = marks.isEmpty := AlikeAll.isEmpty_eq hmarks
    rw [hempty]
    exact .ite (exportDeclaration_retraces hg hmarks (by grind)) .refuse
  · exact plainStatement_retraces hg _ hmarks (by grind)

end AmdModules.Script.Parser
