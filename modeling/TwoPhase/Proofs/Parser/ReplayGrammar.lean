import TwoPhase.Proofs.Parser.Replay

/-!
# Replaying the grammar

Each part of the grammar is replayed if the parts nested in it are (`ReplaysNested`), so all parses
are, by induction on the bound on nesting (`run_replays`).

Blocks are the only parts behind which a text need not fit: nothing is looked at behind the brace
that closes them, and that is where a `begin` block splices.
-/

namespace TwoPhase.Parser

variable {σ τ α β γ δ : Type}

/-- What a part of the grammar gives, by name. -/
def Goal.byName : {α : Type} → Goal α → α → α
  | _, .expr => Expr.byName
  | _, .joined _ => Expr.byName
  | _, .unary => Expr.byName
  | _, .block _ => Block.byName
  | _, .conditional => Stmt.byName

/-- Where a text must fit after a part of the grammar. -/
def Goal.fits : {α : Type} → Goal α → α → Buffer → List Char → Prop
  | _, .block _ => fun _ => Extends
  | _, .expr => fun _ => Foresees
  | _, .joined _ => fun _ => Foresees
  | _, .unary => fun _ => Foresees
  | _, .conditional => fun _ => Foresees

/-- Nested parts are replayed. -/
structure ReplaysNested (again : Again (σ × List Happening))
    (again' : Again (τ × List Happening)) : Prop where
  nested : ∀ {α : Type} (goal : Goal α),
    Replays (fun _ => True) Foresees (again goal) (again' goal) goal.byName goal.fits

namespace Mimics

theorem iterate {rounds : Nat} {step : α → Parse (σ × List Happening) (Run.Step α γ)}
    {step' : α → Parse (τ × List Happening) (Run.Step α γ)} {f : α → β} {g : γ → δ}
    (hstep : ∀ a a', f a = f a' → Mimics (Replays.stepBy f g) (step a) (step' a')) {a a' : α}
    (ha : f a = f a') :
    Mimics g (Run.iterate rounds step a) (Run.iterate rounds step' a') :=
  Replays.iterate (fun a a' ha => (hstep a a' ha).weaken fun result _ _ htext => by
    cases result <;> exact htext) rounds a a' ha

/-- A comma, unless the list ends. -/
theorem separator (kind : TokenKind) {next : Parse (σ × List Happening) γ}
    {next' : Parse (τ × List Happening) γ} {g : γ → δ} (hnext : Mimics g next next') :
    Mimics g
      (do
        if !(← Parser.check kind) then let _ ← Parser.expect .comma
        next)
      (do
        if !(← Parser.check kind) then let _ ← Parser.expect .comma
        next') := by
  refine (check kind).also fun found => ?_
  cases found with
  | true => exact hnext
  | false => exact (expect .comma).also fun _ => hnext

theorem parameters {rounds : Nat} :
    Mimics id (parameters rounds : Parse (σ × List Happening) (List String))
      (Parser.parameters rounds : Parse (τ × List Happening) (List String)) := by
  refine (expect .parenOpen).also fun openToken => ?_
  refine iterate (f := id) (fun names names' hnames => ?_) rfl
  obtain rfl : names = names' := hnames
  refine look fun token => ?_
  split
  · exact Replays.advance.also fun _ => pure rfl
  · exact fail _ _
  · exact expectLexicalName.also fun name => separator _ (pure rfl)

end Mimics

namespace ReplaysNested

variable {again : Again (σ × List Happening)} {again' : Again (τ × List Happening)}
  (h : ReplaysNested again again') {host : Host σ} {host' : Host τ} {rounds : Nat}

include h

/-! ## Lists and functions -/

theorem expr : Mimics Expr.byName (again .expr) (again' .expr) := h.nested .expr

theorem operand : Mimics Expr.byName (again .unary) (again' .unary) := h.nested .unary

theorem operands (limit : Nat) :
    Mimics Expr.byName (again (.joined limit)) (again' (.joined limit)) := h.nested (.joined limit)

/-- A nested block, if what follows it is looked at. -/
theorem nestedBlock (kind : ScopeKind) :
    Mimics Block.byName (again (.block kind)) (again' (.block kind)) :=
  (h.nested (.block kind)).weaken fun _ _ _ => Foresees.extends

theorem delimited (opening closing : TokenKind) (delimiter : Char) :
    Mimics (Prod.map exprsByName id) (delimited rounds again opening closing delimiter)
      (Parser.delimited rounds again' opening closing delimiter) := by
  refine (Mimics.expect opening).also fun openToken => ?_
  refine .iterate (f := exprsByName) (fun items items' hitems => ?_) rfl
  have hdone : ∀ span : Span, Replays.stepBy exprsByName (Prod.map exprsByName id)
      (.done (items.reverse, span)) = Replays.stepBy exprsByName (Prod.map exprsByName id)
      (.done (items'.reverse, span)) := by
    intro span
    simp [Replays.stepBy, exprsByName_reverse, hitems]
  have hitem : Mimics (Replays.stepBy exprsByName (Prod.map exprsByName (id : Span → Span)))
      (do
        let item ← again .expr
        if !(← Parser.check closing) then let _ ← Parser.expect .comma
        return .next (item :: items))
      (do
        let item ← again' .expr
        if !(← Parser.check closing) then let _ ← Parser.expect .comma
        return .next (item :: items')) := by
    refine h.expr.bind fun item item' hitem => Mimics.separator closing (.pure ?_)
    simp [Replays.stepBy, hitems, hitem]
  refine .look fun token => ?_
  split
  · exact Replays.advance.also fun _ => .pure (hdone _)
  · split
    · exact Mimics.bind (f := id) (.fail _ _) fun _ _ _ => hitem
    · exact hitem

theorem function (name : Option String) (kind : ScopeKind) (start : Span) :
    Mimics Function.byName (function rounds again name kind start)
      (Parser.function rounds again' name kind start) := by
  refine Mimics.parameters.also fun params => ?_
  refine Mimics.bind (f := Block.byName) (Replays.inScope _ _ (h.nestedBlock .block))
    fun body body' hbody => .pure ?_
  have hspan := congrArg Block.span hbody
  simp only [Block.byName_span] at hspan
  simp [hbody, hspan]

/-! ## Expressions -/

theorem primary (hnames : host.Names) (hnames' : host'.Names) :
    Mimics Expr.byName (primary host.recorded rounds again)
      (Parser.primary host'.recorded rounds again') := by
  refine .look fun token => ?_
  cases literal? token with
  | some expr => exact Replays.advance.also fun _ => .pure rfl
  | none =>
      dsimp only
      split
      · refine (Mimics.resolve hnames hnames' _ _).bind fun expr expr' hexpr => ?_
        exact Replays.advance.also fun _ => .pure hexpr
      · refine Replays.advance.also fun _ => h.expr.bind fun inner inner' hinner => ?_
        refine (Mimics.expect .parenClose).also fun close => .pure ?_
        rw [Expr.byName_withSpan, Expr.byName_withSpan, hinner]
      · refine (h.delimited _ _ _).bind fun items items' hitems => .pure ?_
        obtain ⟨hitems, hclose⟩ := Prod.mk.inj hitems
        obtain hclose : items.2 = items'.2 := hclose
        simp [hitems, hclose]
      · refine Replays.advance.also fun _ => (h.function _ _ _).bind fun f f' hf => .pure ?_
        have hspan := congrArg Function.span hf
        simp only [Function.byName_span] at hspan
        simp [hf, hspan]
      · exact .fail _ _

theorem call (hnames : host.Names) (hnames' : host'.Names) :
    Mimics Expr.byName (call host.recorded rounds again)
      (Parser.call host'.recorded rounds again') := by
  refine (h.primary hnames hnames').bind fun callee callee' hcallee => ?_
  refine .iterate (fun callee callee' hcallee => ?_) hcallee
  refine (Mimics.check .parenOpen).also fun found => ?_
  cases found with
  | false => exact .pure (congrArg Run.Step.done hcallee)
  | true =>
      refine (h.delimited _ _ _).bind fun args args' hargs => .pure ?_
      obtain ⟨hargs, hclose⟩ := Prod.mk.inj hargs
      obtain hclose : args.2 = args'.2 := hclose
      have hspan := congrArg Expr.span hcallee
      simp only [Expr.byName_span] at hspan
      simp [Replays.stepBy, hcallee, hargs, hclose, hspan]

theorem unary (hnames : host.Names) (hnames' : host'.Names) :
    Mimics Expr.byName (unary host.recorded rounds again)
      (Parser.unary host'.recorded rounds again') := by
  refine .look fun token => ?_
  have hoperator : ∀ op : UnaryOp, Mimics Expr.byName
      (do
        let _ ← Parser.advance
        let operand ← again .unary
        return .unary (token.span.merge operand.span) op operand)
      (do
        let _ ← Parser.advance
        let operand ← again' .unary
        return .unary (token.span.merge operand.span) op operand) := by
    refine fun op => Replays.advance.also fun _ => h.operand.bind fun operand operand' hoperand =>
      .pure ?_
    have hspan := congrArg Expr.span hoperand
    simp only [Expr.byName_span] at hspan
    simp [hoperand, hspan]
  dsimp only
  split
  · exact hoperator .neg
  · exact hoperator .not
  · exact h.call hnames hnames'

theorem joined (hnames : host.Names) (hnames' : host'.Names) (limit : Nat) :
    Mimics Expr.byName (joined host.recorded rounds again limit)
      (Parser.joined host'.recorded rounds again' limit) := by
  refine (h.unary hnames hnames').bind fun left left' hleft => ?_
  refine .iterate (fun left left' hleft => ?_) hleft
  refine .look fun token => ?_
  split
  · exact .pure (congrArg Run.Step.done hleft)
  · rename_i op hop
    split
    · exact .pure (congrArg Run.Step.done hleft)
    · refine Replays.advance.also fun _ => (h.operands _).bind fun right right' hright => .pure ?_
      have hspanLeft := congrArg Expr.span hleft
      have hspanRight := congrArg Expr.span hright
      simp only [Expr.byName_span] at hspanLeft hspanRight
      simp [Replays.stepBy, hleft, hright, hspanLeft, hspanRight]

/-! ## Statements -/

theorem condition : Mimics Expr.byName (condition again) (Parser.condition again') :=
  (Mimics.expect _).also fun _ => h.expr.bind fun _ _ htest =>
    (Mimics.expect _).also fun _ => .pure htest

theorem letStmt : Mimics Stmt.byName (letStmt again) (Parser.letStmt again') := by
  refine Replays.advance.also fun keyword => Mimics.expectLexicalName.also fun name => ?_
  refine (Mimics.expect _).also fun _ => h.expr.bind fun value value' hvalue => ?_
  refine Mimics.expectTerminator.also fun _ => (Mimics.declare name).also fun _ => .pure ?_
  have hspan := congrArg Expr.span hvalue
  simp only [Expr.byName_span] at hspan
  simp [hvalue, hspan]

theorem returned (keyword : Span) :
    Mimics Stmt.byName (returned again keyword) (Parser.returned again' keyword) := by
  have hplain : Mimics Stmt.byName
      (do
        Parser.expectTerminator
        return Stmt.ret keyword none : Parse (σ × List Happening) Stmt)
      (do
        Parser.expectTerminator
        return Stmt.ret keyword none : Parse (τ × List Happening) Stmt) :=
    Mimics.expectTerminator.also fun _ => .pure rfl
  refine .look fun token => ?_
  split
  · exact hplain
  · exact hplain
  · exact hplain
  · refine h.expr.bind fun value value' hvalue => Mimics.expectTerminator.also fun _ => .pure ?_
    have hspan := congrArg Expr.span hvalue
    simp only [Expr.byName_span] at hspan
    simp [hvalue, hspan]

theorem returnStmt : Mimics Stmt.byName (returnStmt again) (Parser.returnStmt again') := by
  refine Replays.advance.also fun keyword => Mimics.mayReturn.also fun found => ?_
  have hrest := h.returned keyword.span
  split
  · exact Mimics.bind (f := id) (.fail _ _) fun _ _ _ => hrest
  · exact hrest

theorem conditional : Mimics Stmt.byName (conditional again) (Parser.conditional again') := by
  refine Replays.advance.also fun keyword => h.condition.bind fun test test' htest => ?_
  refine (h.nestedBlock .block).bind fun yes yes' hyes => ?_
  have hspanYes := congrArg Block.span hyes
  simp only [Block.byName_span] at hspanYes
  dsimp only
  refine (Mimics.eat .kwElse).also fun found => ?_
  cases found with
  | false => exact .pure (by simp [htest, hyes, hspanYes])
  | true =>
      have hwhole : ∀ no no' : Block, no.byName = no'.byName → Mimics Stmt.byName
          (Pure.pure (.cond ((keyword.span.merge yes.span).merge no.span) test yes (some no)) :
            Parse (σ × List Happening) Stmt)
          (Pure.pure (.cond ((keyword.span.merge yes'.span).merge no'.span) test' yes' (some no')) :
            Parse (τ × List Happening) Stmt) := by
        intro no no' hno
        have hspanNo := congrArg Block.span hno
        simp only [Block.byName_span] at hspanNo
        exact .pure (by simp [htest, hyes, hno, hspanYes, hspanNo])
      refine (Mimics.check .kwIf).also fun found => ?_
      cases found with
      | false => exact (h.nestedBlock .block).bind hwhole
      | true =>
          refine Mimics.bind (Replays.inScope .block [] (h.nested .conditional))
            fun nested nested' hnested => hwhole _ _ ?_
          have hnested : nested.byName = nested'.byName := hnested
          have hspan := congrArg Stmt.span hnested
          simp only [Stmt.byName_span] at hspan
          simp [hnested, hspan]

theorem whileStmt : Mimics Stmt.byName (whileStmt again) (Parser.whileStmt again') := by
  refine Replays.advance.also fun keyword => h.condition.bind fun test test' htest => ?_
  refine (h.nestedBlock .block).bind fun body body' hbody => .pure ?_
  have hspan := congrArg Block.span hbody
  simp only [Block.byName_span] at hspan
  simp [htest, hbody, hspan]

theorem exprStmt : Mimics Stmt.byName (exprStmt again) (Parser.exprStmt again') := by
  refine h.expr.bind fun target target' htarget => (Mimics.eat .assign).also fun found => ?_
  have hspanTarget := congrArg Expr.span htarget
  simp only [Expr.byName_span] at hspanTarget
  cases found with
  | false => exact Mimics.expectTerminator.also fun _ => .pure (by simp [htarget])
  | true =>
      refine h.expr.bind fun value value' hvalue => ?_
      have hspanValue := congrArg Expr.span hvalue
      simp only [Expr.byName_span] at hspanValue
      dsimp only
      split
      · rw [Expr.eq_lexical_of_byName htarget.symm]
        refine Mimics.expectTerminator.also fun _ => .pure ?_
        simp [hvalue, hspanValue]
      · obtain ⟨cell', rfl, hcell⟩ := Expr.eq_global_of_byName htarget.symm
        refine Mimics.expectTerminator.also fun _ => .pure ?_
        simp [hvalue, hspanValue, hcell, hspanTarget]
      · rename_i hlexical hglobal
        split
        · exact absurd (Expr.eq_lexical_of_byName htarget) (hlexical _ _)
        · obtain ⟨cell, hcell, _⟩ := Expr.eq_global_of_byName htarget
          exact absurd hcell (hglobal _ _)
        · rw [hspanTarget]
          exact .fail _ _

theorem subStmt : Mimics id (subStmt host.recorded rounds again)
    (Parser.subStmt host'.recorded rounds again') :=
  Replays.advance.also fun _ => Mimics.expectIdent.also fun _ =>
    (h.function _ _ _).bind fun _ _ hf => .installSub _ hf

theorem beginStmt (hsplices : host.OnlySplices) (hquiet : host'.Quiet) :
    Mimics id (beginStmt host.recorded rounds again)
      (Parser.beginStmt host'.recorded rounds again') := by
  refine Replays.advance.also fun keyword => ?_
  refine Replays.bind (f := Block.byName) (K := fun _ => Extends) (h.nested (.block .beginBlock))
    fun body body' hbody => ?_
  have hspan := congrArg Block.span hbody
  simp only [Block.byName_span] at hspan
  rw [← hspan]
  exact .runBegin hsplices hquiet rounds hbody _

variable (hsplices : host.OnlySplices) (hquiet : host'.Quiet) (hnames : host.Names)
  (hnames' : host'.Names)

include hsplices hquiet

theorem statement : Mimics (Option.map Stmt.byName) (statement host.recorded rounds again)
    (Parser.statement host'.recorded rounds again') := by
  have hsome : ∀ {body : Parse (σ × List Happening) Stmt} {body' : Parse (τ × List Happening) Stmt},
      Mimics Stmt.byName body body' →
        Mimics (Option.map Stmt.byName) (some <$> body) (some <$> body') :=
    fun hbody => hbody.bind fun _ _ hstmt => .pure (congrArg some hstmt)
  refine .look fun token => ?_
  split
  · exact Replays.advance.also fun _ => .pure rfl
  · exact (h.beginStmt hsplices hquiet).also fun _ => .pure rfl
  · exact h.subStmt.also fun _ => .pure rfl
  · exact hsome h.letStmt
  · exact hsome h.returnStmt
  · exact hsome h.conditional
  · exact hsome h.whileStmt
  · exact (h.nestedBlock .block).bind fun _ _ hbody => .pure (congrArg (some ∘ Stmt.block) hbody)
  · exact hsome h.exprStmt

/-- A statement in front of those parsed so far. -/
theorem nextStmt {M : Block → Buffer → List Char → Prop} {stmts stmts' : List Stmt}
    (hstmts : stmtsByName stmts = stmtsByName stmts') :
    Replays (fun _ => True) Foresees
      (do
        let stmt ← Parser.statement host.recorded rounds again
        return .next (stmt.toList ++ stmts))
      (do
        let stmt ← Parser.statement host'.recorded rounds again'
        return .next (stmt.toList ++ stmts'))
      (Replays.stepBy stmtsByName Block.byName) (Replays.stepFits M) := by
  refine Replays.bind (h.statement hsplices hquiet) fun stmt stmt' hstmt =>
    Replays.pure (K := Replays.stepFits M) (congrArg Run.Step.next ?_)
  rw [stmtsByName_eq_map, stmtsByName_eq_map] at hstmts ⊢
  cases stmt <;> cases stmt' <;> simp_all

/-- A block is replayed up to the brace that closes it. -/
theorem block (kind : ScopeKind) : Replays (fun _ => True) Foresees
    (block host.recorded rounds again kind) (Parser.block host'.recorded rounds again' kind)
    Block.byName (fun _ => Extends) := by
  refine Replays.bind (Mimics.expect .braceOpen) fun openToken openToken' hopen => ?_
  obtain rfl : openToken = openToken' := hopen
  refine Replays.inScope kind [] (Replays.iterate (f := stmtsByName) (fun stmts stmts' hstmts =>
    Replays.look fun token => ?_) rounds [] [] rfl)
  split
  · rename_i hkind
    refine Replays.bind (Replays.advance_brace.assume fun p hp => hp ▸ hkind) fun _ _ _ =>
      Replays.pure (K := Replays.stepFits fun _ => Extends) (congrArg Run.Step.done ?_)
    simp [stmtsByName_reverse, hstmts]
  · exact .throw _
  · exact (h.nextStmt hsplices hquiet hstmts).seen

theorem unit : Mimics Block.byName (unit host.recorded rounds again)
    (Parser.unit host'.recorded rounds again') := by
  refine Replays.inScope .unit [] (Replays.iterate (f := stmtsByName) (fun stmts stmts' hstmts =>
    Replays.look fun token => ?_) rounds [] [] rfl)
  split
  · refine .seen (Replays.pure (K := Replays.stepFits fun _ => Foresees)
      (congrArg Run.Step.done ?_))
    simp [stmtsByName_reverse, hstmts]
  · exact .throw _
  · exact (h.nextStmt hsplices hquiet hstmts).seen

include hnames hnames'

theorem parse {α : Type} (goal : Goal α) :
    Replays (fun _ => True) Foresees (parse host.recorded rounds again goal)
      (Parser.parse host'.recorded rounds again' goal) goal.byName goal.fits := by
  cases goal with
  | expr => exact h.joined hnames hnames' 6
  | joined limit => exact h.joined hnames hnames' limit
  | unary => exact h.unary hnames hnames'
  | block kind => exact h.block hsplices hquiet kind
  | conditional => exact h.conditional

end ReplaysNested

/-! ## Nesting -/

variable {host : Host σ} {host' : Host τ}

theorem run_replays (hsplices : host.OnlySplices) (hquiet : host'.Quiet) (hnames : host.Names)
    (hnames' : host'.Names) (bound : Nat) :
    ReplaysNested (run host.recorded bound) (run host'.recorded bound) := by
  induction bound with
  | zero => exact ⟨fun _ _ _ => trivial⟩
  | succ bound ih =>
      refine ⟨fun goal => ?_⟩
      rw [run_succ, run_succ]
      exact ih.parse hsplices hquiet hnames hnames' goal

theorem runUnit_mimics (hsplices : host.OnlySplices) (hquiet : host'.Quiet) (hnames : host.Names)
    (hnames' : host'.Names) (bound : Nat) :
    Mimics Block.byName (runUnit host.recorded bound) (runUnit host'.recorded bound) :=
  (run_replays hsplices hquiet hnames hnames' bound).unit hsplices hquiet

end TwoPhase.Parser
