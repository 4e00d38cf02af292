import TwoPhase.Parser.Grammar
import TwoPhase.Proofs.Likeness.Running

/-!
# Parsing side by side

Two parses of texts with the same words ahead give trees that are the same up to spans, as long as
their hosts do what is alike.  The bounds on nesting may differ, by the same amount throughout.
-/

namespace TwoPhase

open Interpreter (Matched Restored Loud Hosted)
open Run (Sim)

variable {K : Comparison}

namespace Parser

instance : HasLike (Parser.State Interpreter.State) where
  Like K p q := p.buffer.Like K q.buffer ∧ p.scopes = q.scopes ∧ p.host.Like K q.host
  like_refl _ p := ⟨.refl p.buffer, rfl, .refl p.host⟩

/-- How parsing is compared. -/
@[reducible] def parsing (K : Comparison) : Run.Setting K (Parser.State Interpreter.State) where
  Rel p q := p.buffer.Like K q.buffer ∧ p.scopes = q.scopes ∧ Matched K p.host q.host
  Moves p q := Restored p.host q.host
  Loud p := Loud K p.host
  like h := ⟨h.1, h.2.1, h.2.2.like⟩
  refl _ := .refl _
  trans := .trans
  loud h := h.loud

@[reducible] def hosted (K : Comparison) : (parsing K).Guard :=
  ⟨fun p => (Interpreter.hosted K).Holds p.host, fun h hp => (Interpreter.hosted K).moves h hp⟩

/-- Parses that follow each other. -/
abbrev Alike {α : Type} [HasLike α] (K : Comparison)
    (body body' : Parse Interpreter.State α) : Prop :=
  Sim (parsing K) (hosted K) body body'

namespace Alike

variable {α : Type} [HasLike α] {p q p' q' : Span}

/-! ## Errors -/

theorem raise {fault fault' : ParseFault} (hfault : fault.unplaced = fault'.unplaced)
    (heq : K.exact → fault = fault') (hspan : p.Like K q) :
    Alike K (Parser.fail fault p : Parse _ α) (Parser.fail fault' q) := by
  refine .throw ⟨?_, fun hexact _ => by rw [heq hexact, hspan hexact]⟩
  simp only [CompileError.unplaced, hfault]

theorem fail (fault : ParseFault) (hspan : p.Like K q) :
    Alike K (Parser.fail fault p : Parse _ α) (Parser.fail fault q) :=
  raise rfl (fun _ => rfl) hspan

theorem unclosed (delimiter : Char) (hopened : p'.Like K q') (hspan : p.Like K q) :
    Alike K (Parser.fail (.unclosed delimiter p') p : Parse _ α)
      (Parser.fail (.unclosed delimiter q') q) :=
  raise rfl (fun hexact => by rw [hopened hexact]) hspan

theorem misplaced {t u : Token} (h : t.Like K u) (fault : String → ParseFault) :
    Alike K (Parser.fail (misplaced t fault) t.span : Parse _ α)
      (Parser.fail (misplaced u fault) u.span) := by
  have heq : Parser.misplaced t fault = Parser.misplaced u fault := by
    obtain ⟨kind, span, lexeme⟩ := t
    obtain ⟨kind', span', lexeme'⟩ := u
    obtain ⟨rfl, rfl, _⟩ := h
    rfl
  rw [heq]
  exact fail _ h.span

theorem unexpected (what : String) {t u : Token} (h : t.Like K u) :
    Alike K (Parser.unexpected what t : Parse _ α) (Parser.unexpected what u) :=
  misplaced h _

/-! ## Tokens -/

theorem peek : Alike K Parser.peek Parser.peek := by
  refine Sim.modifyGet (fun p => .refl p.host) fun {p q} h _ => .inr ?_
  obtain ⟨hbuffer, hscopes, hhost⟩ := h
  exact ⟨hbuffer.peek.1, hbuffer.peek.2, hscopes, hhost⟩

theorem advance : Alike K Parser.advance Parser.advance := by
  refine Sim.modifyGet (fun p => .refl p.host) fun {p q} h _ => .inr ?_
  obtain ⟨hbuffer, hscopes, hhost⟩ := h
  exact ⟨hbuffer.next.1, hbuffer.next.2, hscopes, hhost⟩

theorem check (kind : TokenKind) : Alike K (Parser.check kind) (Parser.check kind) :=
  peek.bind fun _ _ h => .pure (congrArg (· == kind) h.kind)

theorem eat (kind : TokenKind) : Alike K (Parser.eat kind) (Parser.eat kind) := by
  refine (check kind).bind fun b c h => ?_
  obtain rfl : b = c := h
  cases b with
  | true => exact advance.bind fun _ _ _ => .pure rfl
  | false => exact .pure rfl

theorem expect (kind : TokenKind) : Alike K (Parser.expect kind) (Parser.expect kind) := by
  refine peek.bind fun t u h => ?_
  rw [h.kind]
  split
  · exact advance
  · exact unexpected _ h

theorem expectIdent : Alike K Parser.expectIdent Parser.expectIdent := by
  refine peek.bind fun t u h => ?_
  have hfail := misplaced (α := String × Span) h .expectedIdentifier
  rw [h.kind]
  cases u.kind with
  | ident name => exact advance.bind fun _ _ _ => .pure ⟨rfl, h.span⟩
  | _ => exact hfail

theorem expectLexicalName : Alike K Parser.expectLexicalName Parser.expectLexicalName := by
  refine expectIdent.bind fun found found' h => ?_
  obtain ⟨name, span⟩ := found
  obtain ⟨name', span'⟩ := found'
  obtain ⟨hname, hspan⟩ := h
  obtain rfl : name = name' := hname
  dsimp only
  split
  · exact fail _ hspan
  · exact .pure rfl

theorem expectTerminator : Alike K Parser.expectTerminator Parser.expectTerminator := by
  refine (eat .semicolon).bind fun b c h => ?_
  obtain rfl : b = c := h
  cases b with
  | true => exact .pure rfl
  | false =>
      refine peek.bind fun t u h => ?_
      have hfail := unexpected (α := Unit) "`;`" h
      rw [h.kind]
      cases u.kind with
      | braceClose => exact .pure rfl
      | endOfInput => exact .pure rfl
      | _ => exact hfail

/-! ## Scopes -/

theorem inScope (kind : ScopeKind) (names : List String) {body body' : Parse _ α}
    (hbody : Alike K body body') :
    Alike K (Parser.inScope kind names body) (Parser.inScope kind names body') := by
  refine Sim.between hbody (fun h => h) (fun h => h) (fun {s t} h hA => ⟨?_, hA⟩) fun {s t} h => ?_
  · exact ⟨h.1, congrArg (List.cons (.declaring kind names)) h.2.1, h.2.2⟩
  · exact ⟨h.1, congrArg List.tail h.2.1, h.2.2⟩

theorem mayReturn : Alike K Parser.mayReturn Parser.mayReturn :=
  .get fun _ _ h => .pure (congrArg inCallable h.2.1)

theorem declare (name : String) : Alike K (Parser.declare name) (Parser.declare name) :=
  .update (fun p => .refl p.host) fun h _ => .inr ⟨h.1, by dsimp only; rw [h.2.1], h.2.2⟩

end Alike

/-! ## Hosts and parts -/

/-- Hosts that do what is alike.  What is left of the bound on nesting may differ by a constant. -/
structure HostsAlike (K : Comparison) (more : Nat) (host host' : Host Interpreter.State) :
    Prop where
  resolve : ∀ (name : String) {p q : Span}, p.Like K q →
    Alike K (Parser.resolve host name p) (Parser.resolve host' name q)
  install : ∀ (name : String) {f g : Function}, f.Like K g →
    Alike K (Parser.installSub host name f) (Parser.installSub host' name g)
  begins : ∀ (left : Nat) {b c : Block} {p q : Span}, b.Like K c → p.Like K q →
    Alike K (Parser.runBegin host left b p) (Parser.runBegin host' (left + more) c q)

/-- Ways to parse what may nest that follow each other. -/
structure PartsAlike (K : Comparison) (again again' : Again Interpreter.State) : Prop where
  innerExpr : Alike K (again .expr) (again' .expr)
  innerJoined : ∀ limit, Alike K (again (.joined limit)) (again' (.joined limit))
  innerUnary : Alike K (again .unary) (again' .unary)
  innerBlock : ∀ kind, Alike K (again (.block kind)) (again' (.block kind))
  innerConditional : Alike K (again .conditional) (again' .conditional)

namespace PartsAlike

variable {host host' : Host Interpreter.State} {more rounds : Nat}
    {again again' : Again Interpreter.State}
  (hhost : HostsAlike K more host host') (h : PartsAlike K again again')

/-! ## Lists and functions -/

include h

theorem delimited (opening closing : TokenKind) (delimiter : Char) :
    Alike K (Parser.delimited rounds again opening closing delimiter)
      (Parser.delimited (rounds + more) again' opening closing delimiter) := by
  refine (Alike.expect opening).bind fun t u ht => ?_
  refine .iterate (fun items items' hitems => ?_) (Nat.le_add_right _ _) (like_refl K [])
  refine Alike.peek.bind fun token token' htoken => ?_
  rw [htoken.kind]
  split
  · refine Alike.advance.bind fun _ _ _ => .pure ?_
    exact ⟨List.rel_reverse hitems, htoken.span⟩
  split
  · exact Alike.unclosed (α := Run.Step (List Expr) (List Expr × Span)) delimiter ht.span
      htoken.span
  refine h.innerExpr.bind fun item item' hitem => (Alike.check closing).bind fun b c hb => ?_
  obtain rfl : b = c := hb
  cases b with
  | true => exact .pure (List.Forall₂.cons hitem hitems)
  | false => exact (Alike.expect .comma).bind fun _ _ _ => .pure (List.Forall₂.cons hitem hitems)

omit h in
theorem parameters : Alike K (Parser.parameters rounds) (Parser.parameters (rounds + more)) := by
  refine (Alike.expect .parenOpen).bind fun t u ht => ?_
  refine .iterate (fun names names' hnames => ?_) (Nat.le_add_right _ _) (like_refl K [])
  obtain rfl : names = names' := eq_of_forall₂ (fun h => h) hnames
  refine Alike.peek.bind fun token token' htoken => ?_
  have hnext : Alike K (do
      let name ← Parser.expectLexicalName
      if !(← Parser.check .parenClose) then let _ ← Parser.expect .comma
      return .next (name :: names) : Parse _ (Run.Step (List String) (List String))) (do
      let name ← Parser.expectLexicalName
      if !(← Parser.check .parenClose) then let _ ← Parser.expect .comma
      return .next (name :: names)) := by
    refine Alike.expectLexicalName.bind fun name name' hname => ?_
    obtain rfl : name = name' := hname
    refine (Alike.check .parenClose).bind fun b c hb => ?_
    obtain rfl : b = c := hb
    cases b with
    | true => exact .pure (like_refl K _)
    | false => exact (Alike.expect .comma).bind fun _ _ _ => .pure (like_refl K _)
  have hopened := ht.span
  have hspan := htoken.span
  rw [htoken.kind]
  cases token'.kind with
  | parenClose => exact Alike.advance.bind fun _ _ _ => .pure (like_refl K _)
  | endOfInput => exact Alike.unclosed '(' hopened hspan
  | _ => exact hnext

theorem function (name : Option String) (kind : ScopeKind) {p q : Span} (hspan : p.Like K q) :
    Alike K (Parser.function rounds again name kind p)
      (Parser.function (rounds + more) again' name kind q) := by
  refine parameters.bind fun params params' hparams => ?_
  obtain rfl : params = params' := eq_of_forall₂ (fun h => h) hparams
  refine (Alike.inScope kind _ (h.innerBlock .block)).bind fun b c hbody => .pure ?_
  exact .mk name params (hspan.merge hbody.span) hbody

/-! ## Expressions -/

omit h in
theorem literal? {t u : Token} (ht : t.Like K u) :
    Like K (Parser.literal? t) (Parser.literal? u) := by
  unfold Parser.literal?
  rw [ht.kind]
  cases u.kind with
  | int value => exact .some (.int value ht.span)
  | str value => exact .some (.str value ht.span)
  | kwTrue => exact .some (.bool true ht.span)
  | kwFalse => exact .some (.bool false ht.span)
  | kwNil => exact .some (.nil ht.span)
  | _ => exact .none

include hhost

theorem primary : Alike K (Parser.primary host rounds again)
    (Parser.primary host' (rounds + more) again') := by
  refine Alike.peek.bind fun t u ht => ?_
  rcases rel_cases (literal? ht) with ⟨hnone, hnone'⟩ | ⟨e, f, hsome, hsome', hef⟩
  · have hspan := ht.span
    have hfail := Alike.misplaced (α := Expr) ht .expectedExpression
    rw [hnone, hnone']
    dsimp only
    rw [ht.kind]
    cases u.kind with
    | ident name =>
        exact (hhost.resolve name hspan).bind fun e f he => Alike.advance.bind fun _ _ _ => .pure he
    | parenOpen =>
        refine Alike.advance.bind fun _ _ _ => h.innerExpr.bind fun e f he => ?_
        refine (Alike.expect .parenClose).bind fun close close' hclose => .pure ?_
        exact he.withSpan (hspan.merge hclose.span)
    | bracketOpen =>
        refine (h.delimited .bracketOpen .bracketClose '[').bind fun found found' hfound => .pure ?_
        exact .list (hspan.merge hfound.2) hfound.1
    | kwFn =>
        refine Alike.advance.bind fun _ _ _ =>
          (h.function none .closure hspan).bind fun f g hf => ?_
        exact .pure (.closure hf.span hf)
    | _ => exact hfail
  · rw [hsome, hsome']
    exact Alike.advance.bind fun _ _ _ => .pure hef

theorem call : Alike K (Parser.call host rounds again)
    (Parser.call host' (rounds + more) again') := by
  refine (h.primary hhost).bind fun e f he => ?_
  refine .iterate (fun e f hcallee => ?_) (Nat.le_add_right _ _) he
  refine (Alike.check .parenOpen).bind fun b c hb => ?_
  obtain rfl : b = c := hb
  cases b with
  | true =>
      refine (h.delimited .parenOpen .parenClose '(').bind fun found found' hfound => .pure ?_
      exact .call (hcallee.span.merge hfound.2) hcallee hfound.1
  | false => exact .pure hcallee

theorem unary : Alike K (Parser.unary host rounds again)
    (Parser.unary host' (rounds + more) again') := by
  refine Alike.peek.bind fun t u ht => ?_
  have hspan := ht.span
  have hoperator : ∀ op : UnaryOp, Alike K (do
      let _ ← Parser.advance
      let operand ← again .unary
      return .unary (t.span.merge operand.span) op operand : Parse _ Expr) (do
      let _ ← Parser.advance
      let operand ← again' .unary
      return .unary (u.span.merge operand.span) op operand) :=
    fun op => Alike.advance.bind fun _ _ _ => h.innerUnary.bind fun e f he =>
      .pure (.unary op (hspan.merge he.span) he)
  dsimp only
  rw [ht.kind]
  cases u.kind with
  | minus => exact hoperator .neg
  | bang => exact hoperator .not
  | _ => exact h.call hhost

theorem joined (limit : Nat) : Alike K (Parser.joined host rounds again limit)
    (Parser.joined host' (rounds + more) again' limit) := by
  refine (h.unary hhost).bind fun e f he => ?_
  refine .iterate (fun e f hleft => ?_) (Nat.le_add_right _ _) he
  refine Alike.peek.bind fun t u ht => ?_
  rw [ht.kind]
  cases operator? u.kind with
  | none => exact .pure hleft
  | some op =>
      dsimp only
      split
      · exact .pure hleft
      · refine Alike.advance.bind fun _ _ _ => (h.innerJoined _).bind fun e' f' hright => .pure ?_
        exact .binary op (hleft.span.merge hright.span) hleft hright

/-! ## Statements -/

omit hhost

theorem condition : Alike K (Parser.condition again) (Parser.condition again') :=
  (Alike.expect .parenOpen).bind fun _ _ _ => h.innerExpr.bind fun _ _ he =>
    (Alike.expect .parenClose).bind fun _ _ _ => .pure he

theorem letStmt : Alike K (Parser.letStmt again) (Parser.letStmt again') := by
  refine Alike.advance.bind fun t u ht => Alike.expectLexicalName.bind fun name name' hname => ?_
  obtain rfl : name = name' := hname
  refine (Alike.expect .assign).bind fun _ _ _ => h.innerExpr.bind fun e f he => ?_
  refine Alike.expectTerminator.bind fun _ _ _ => (Alike.declare name).bind fun _ _ _ => .pure ?_
  exact .define name (ht.span.merge he.span) he

theorem returned {p q : Span} (hspan : p.Like K q) :
    Alike K (Parser.returned again p) (Parser.returned again' q) := by
  refine Alike.peek.bind fun token token' htoken => ?_
  have hnone : Alike K (do
      Parser.expectTerminator
      return .ret p none : Parse _ Stmt) (do
      Parser.expectTerminator
      return .ret q none) :=
    Alike.expectTerminator.bind fun _ _ _ => .pure (.ret hspan)
  rw [htoken.kind]
  cases token'.kind with
  | semicolon => exact hnone
  | braceClose => exact hnone
  | endOfInput => exact hnone
  | _ =>
      exact h.innerExpr.bind fun e f he => Alike.expectTerminator.bind fun _ _ _ =>
        .pure (.retValue (hspan.merge he.span) he)

theorem returnStmt : Alike K (Parser.returnStmt again) (Parser.returnStmt again') := by
  refine Alike.advance.bind fun t u ht => Alike.mayReturn.bind fun b c hb => ?_
  obtain rfl : b = c := hb
  cases b with
  | false => exact Alike.fail (α := Stmt) .returnOutsideCallable ht.span
  | true => exact h.returned ht.span

theorem conditional : Alike K (Parser.conditional again) (Parser.conditional again') := by
  refine Alike.advance.bind fun t u ht => h.condition.bind fun e f he => ?_
  refine (h.innerBlock .block).bind fun yes yes' hyes => (Alike.eat .kwElse).bind fun b c hb => ?_
  obtain rfl : b = c := hb
  have hspan := ht.span.merge hyes.span
  cases b with
  | false => exact .pure (.cond hspan he hyes)
  | true =>
      refine (Alike.check .kwIf).bind fun b c hb => ?_
      obtain rfl : b = c := hb
      cases b with
      | true =>
          refine (Alike.inScope .block [] h.innerConditional).bind fun no no' hno => .pure ?_
          exact .condElse (hspan.merge hno.span) he hyes (.mk hno.span (.cons hno .nil))
      | false =>
          refine (h.innerBlock .block).bind fun no no' hno => .pure ?_
          exact .condElse (hspan.merge hno.span) he hyes hno

theorem whileStmt : Alike K (Parser.whileStmt again) (Parser.whileStmt again') :=
  Alike.advance.bind fun _ _ ht => h.condition.bind fun _ _ he =>
    (h.innerBlock .block).bind fun _ _ hb =>
    .pure (.loop (ht.span.merge hb.span) he hb)

theorem exprStmt : Alike K (Parser.exprStmt again) (Parser.exprStmt again') := by
  refine h.innerExpr.bind fun e f he => (Alike.eat .assign).bind fun b c hb => ?_
  obtain rfl : b = c := hb
  cases b with
  | false => exact Alike.expectTerminator.bind fun _ _ _ => .pure (.expr he)
  | true =>
      refine h.innerExpr.bind fun value value' hvalue => ?_
      have hspan := he.span.merge hvalue.span
      have hfail := Alike.fail (α := Stmt) .invalidTarget he.span
      cases he with
      | lexical ref =>
          exact Alike.expectTerminator.bind fun _ _ _ => .pure (.assignLexical ref hspan hvalue)
      | global cell =>
          exact Alike.expectTerminator.bind fun _ _ _ => .pure (.assignGlobal cell hspan hvalue)
      | _ => exact hfail

include hhost

theorem beginStmt : Alike K (Parser.beginStmt host rounds again)
    (Parser.beginStmt host' (rounds + more) again') :=
  Alike.advance.bind fun _ _ ht => (h.innerBlock .beginBlock).bind fun _ _ hb =>
    hhost.begins rounds hb (ht.span.merge hb.span)

theorem subStmt : Alike K (Parser.subStmt host rounds again)
    (Parser.subStmt host' (rounds + more) again') := by
  refine Alike.advance.bind fun t u ht => Alike.expectIdent.bind fun found found' hfound => ?_
  obtain ⟨name, span⟩ := found
  obtain ⟨name', span'⟩ := found'
  obtain rfl : name = name' := hfound.1
  exact (h.function (some name) .sub ht.span).bind fun f g hf => hhost.install name hf

theorem statement : Alike K (Parser.statement host rounds again)
    (Parser.statement host' (rounds + more) again') := by
  refine Alike.peek.bind fun t u ht => ?_
  rw [ht.kind]
  have hsome : ∀ {body body' : Parse Interpreter.State Stmt}, Alike K body body' →
      Alike K (some <$> body) (some <$> body') := fun hbody => by
    rw [map_eq_pure_bind, map_eq_pure_bind]
    exact hbody.bind fun _ _ hs => .pure (.some hs)
  have hexpr := hsome h.exprStmt
  cases u.kind with
  | semicolon => exact Alike.advance.bind fun _ _ _ => .pure .none
  | kwBegin => exact (h.beginStmt hhost).bind fun _ _ _ => .pure .none
  | kwSub => exact (h.subStmt hhost).bind fun _ _ _ => .pure .none
  | kwLet => exact hsome h.letStmt
  | kwReturn => exact hsome h.returnStmt
  | kwIf => exact hsome h.conditional
  | kwWhile => exact hsome h.whileStmt
  | braceOpen =>
      dsimp only
      rw [map_eq_pure_bind, map_eq_pure_bind]
      exact (h.innerBlock .block).bind fun _ _ hb => .pure (.some (.block hb))
  | _ => exact hexpr

/-- A round of a block: one more statement. -/
theorem oneMore {ss ts : List Stmt} (hstmts : Like K ss ts) : Alike K (do
      let stmt ← Parser.statement host rounds again
      return .next (stmt.toList ++ ss) : Parse _ (Run.Step (List Stmt) Block)) (do
      let stmt ← Parser.statement host' (rounds + more) again'
      return .next (stmt.toList ++ ts)) := by
  refine (h.statement hhost).bind fun o o' ho => .pure ?_
  cases ho with
  | none => exact hstmts
  | some hs => exact List.Forall₂.cons hs hstmts

theorem block (kind : ScopeKind) : Alike K (Parser.block host rounds again kind)
    (Parser.block host' (rounds + more) again' kind) := by
  refine (Alike.expect .braceOpen).bind fun t u ht => Alike.inScope kind [] ?_
  refine .iterate (fun ss ts hstmts => ?_) (Nat.le_add_right _ _) (like_refl K [])
  refine Alike.peek.bind fun token token' htoken => ?_
  have hopened := ht.span
  have hspan := htoken.span
  rw [htoken.kind]
  cases token'.kind with
  | braceClose =>
      refine Alike.advance.bind fun _ _ _ => .pure ?_
      exact .mk (hopened.merge hspan) (List.rel_reverse hstmts)
  | endOfInput => exact Alike.unclosed '\x7b' hopened hspan
  | _ => exact h.oneMore hhost hstmts

theorem unit :
    Alike K (Parser.unit host rounds again) (Parser.unit host' (rounds + more) again') := by
  refine Alike.inScope .unit [] ?_
  refine .iterate (fun ss ts hstmts => ?_) (Nat.le_add_right _ _) (like_refl K [])
  refine Alike.peek.bind fun token token' htoken => ?_
  have hspan := htoken.span
  have hfail := Alike.unexpected (α := Run.Step (List Stmt) Block) "statement" htoken
  rw [htoken.kind]
  cases token'.kind with
  | endOfInput => exact .pure (.mk hspan.unit (List.rel_reverse hstmts))
  | braceClose => exact hfail
  | _ => exact h.oneMore hhost hstmts

end PartsAlike

/-! ## Nesting -/

variable {host host' : Host Interpreter.State} {more : Nat}

theorem run_alike (hhost : HostsAlike K more host host') (bound : Nat) :
    PartsAlike K (run host bound) (run host' (bound + more)) := by
  induction bound with
  | zero => exact ⟨.cutOff, fun _ => .cutOff, .cutOff, fun _ => .cutOff, .cutOff⟩
  | succ bound ih =>
      rw [Nat.add_right_comm]
      constructor <;> intros <;> rw [run_succ, run_succ]
      · exact ih.joined hhost 6
      · exact ih.joined hhost _
      · exact ih.unary hhost
      · exact ih.block hhost _
      · exact ih.conditional

theorem runUnit_alike (hhost : HostsAlike K more host host') (bound : Nat) :
    Alike K (runUnit host bound) (runUnit host' (bound + more)) :=
  (run_alike hhost bound).unit hhost

end Parser

end TwoPhase
