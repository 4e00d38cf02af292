import TwoPhase.Proofs.Parser.Known

/-!
# Statement by statement

A unit and a block in braces are parsed by a loop that reads one statement a round.  A `begin` block
takes a round and adds nothing to the tree, so where it hands back a buffer with text spliced in,
the next round starts at that text.
-/

namespace TwoPhase

namespace Buffer

variable {b : Buffer}

theorem fst_peek (b : Buffer) : b.peek.1 = b.found.token := by
  unfold peek found
  cases hpeeked : b.peeked with
  | some found => rfl
  | none => rfl

theorem found_peek (b : Buffer) : b.peek.2.found = b.found := by
  rw [found_eq, found_eq]
  unfold peek
  cases b.peeked <;> rfl

/-- Looking at a token does not change what consuming it does. -/
theorem next_peek (b : Buffer) : b.peek.2.next = b.next := by
  have hfound := b.found_peek
  have hkept : b.peek.2.before = b.before ∧ b.peek.2.consumed = b.consumed := by
    unfold peek
    cases b.peeked <;> exact ⟨rfl, rfl⟩
  simp only [next, hfound, hkept]

end Buffer

namespace Parser

open Run (Triple Yields)

variable {σ α : Type} {host : Host σ} {rounds : Nat} {again : Again σ}

/-! ## The loops -/

/-- What statements are read for: a unit, or a block whose opening brace has some span. -/
inductive Level where
  | unit
  | braced (openSpan : Span)

/-- A round of the loop over statements, with those that were read so far, the last first. -/
def round (host : Host σ) (rounds : Nat) (again : Again σ) (level : Level) (stmts : List Stmt) :
    Parse σ (Run.Step (List Stmt) Block) :=
  match level with
  | .unit => do
    let token ← peek
    match token.kind with
    | .endOfInput => return .done (Block.mk ⟨0, token.span.stop⟩ stmts.reverse)
    | .braceClose => unexpected "statement" token
    | _ =>
      let stmt ← statement host rounds again
      return .next (stmt.toList ++ stmts)
  | .braced openSpan => do
    let token ← peek
    match token.kind with
    | .braceClose =>
      let _ ← advance
      return .done (Block.mk (openSpan.merge token.span) stmts.reverse)
    | .endOfInput => fail (.unclosed '\x7b' openSpan) token.span
    | _ =>
      let stmt ← statement host rounds again
      return .next (stmt.toList ++ stmts)

theorem unit_eq : unit host rounds again =
    inScope .unit [] (Run.iterate rounds (round host rounds again .unit) []) := rfl

theorem block_eq (kind : ScopeKind) : block host rounds again kind = (do
    let openToken ← expect .braceOpen
    inScope kind [] (Run.iterate rounds (round host rounds again (.braced openToken.span)) [])) :=
  rfl

/-! ## A round -/

variable {level : Level} {stmts : List Stmt} {s : State σ}

/-- At a token that ends nothing, a round reads a statement. -/
theorem round_statement (hclose : s.buffer.found.token.kind ≠ .braceClose)
    (hend : s.buffer.found.token.kind ≠ .endOfInput) :
    round host rounds again level stmts s =
      (do
        let stmt ← statement host rounds again
        return .next (stmt.toList ++ stmts) : Parse σ (Run.Step (List Stmt) Block))
        { s with buffer := s.buffer.peek.2 } := by
  rw [← s.buffer.fst_peek] at hclose hend
  -- the other branches are ruled out by what the token is not
  unfold round
  cases level with
  | unit => simp only [peek, Run.bind_apply, Run.modifyGet_apply]
  | braced openSpan => simp only [peek, Run.bind_apply, Run.modifyGet_apply]

/-- A round at a `begin` block parses its body and runs it. -/
theorem round_begin_eq {body : Block} {t : State σ} (hkind : s.buffer.found.token.kind = .kwBegin)
    (hbody : again (.block .beginBlock) { s with buffer := s.buffer.next.2 } = .value body t) :
    round host rounds again level stmts s =
      (do
        runBegin host rounds body (s.buffer.found.token.span.merge body.span)
        return .next stmts : Parse σ (Run.Step (List Stmt) Block)) t := by
  rw [round_statement (by simp [hkind]) (by simp [hkind])]
  -- the token is looked at once for the loop and once for the statement
  have hpeeked : s.buffer.peek.2.peek.1.kind = .kwBegin := by
    rw [Buffer.fst_peek, Buffer.found_peek, hkind]
  have hnext : s.buffer.peek.2.peek.2.next = s.buffer.next := by
    rw [Buffer.next_peek, Buffer.next_peek]
  have htoken : s.buffer.next.1 = s.buffer.found.token := rfl
  simp only [statement, peek, Run.bind_apply, Run.modifyGet_apply]
  rw [hpeeked]
  simp only [beginStmt, advance, Run.bind_apply, Run.modifyGet_apply, hnext, hbody, htoken]
  cases runBegin host rounds body (s.buffer.found.token.span.merge body.span) t <;> rfl

/-- A `begin` block takes a round of its own. -/
theorem round_begin {scopes : List LexicalScope} {body : Block} {b b' : Buffer} {h h' : σ}
    (hkind : s.buffer.found.token.kind = .kwBegin)
    (hbody : again (.block .beginBlock) { s with buffer := s.buffer.next.2 }
      = .value body ⟨b, scopes, h⟩)
    (hbegin : host.runBegin rounds body (s.buffer.found.token.span.merge body.span) (b, h)
      = .value () (b', h')) :
    round host rounds again level stmts s = .value (.next stmts) ⟨b', scopes, h'⟩ := by
  rw [round_begin_eq hkind hbody]
  simp only [runBegin, Run.bind_apply, hbegin]
  rfl

namespace At

variable {kind : TokenKind} {kinds : List TokenKind} {rest : List Char}
  {scopes : List LexicalScope} {h : σ}

theorem round (hclose : kind ≠ .braceClose) (hend : kind ≠ .endOfInput)
    {Q : Option Stmt → State σ → Prop}
    (hstmt : Yields (At (kind :: kinds) rest scopes h) (statement host rounds again) Q) :
    Yields (At (kind :: kinds) rest scopes h) (round host rounds again level stmts)
      fun step s => ∃ stmt, step = .next (stmt.toList ++ stmts) ∧ Q stmt s := by
  have hnext : Yields (At (kind :: kinds) rest scopes h) (do
      let stmt ← statement host rounds again
      return .next (stmt.toList ++ stmts) : Parse σ (Run.Step (List Stmt) Block))
      fun step s => ∃ stmt, step = .next (stmt.toList ++ stmts) ∧ Q stmt s :=
    Triple.bind hstmt fun stmt s hs => ⟨stmt, rfl, hs⟩
  unfold Parser.round
  cases level with
  | unit =>
      refine At.look fun token hkind => ?_
      split
      · rename_i hinput
        exact absurd (hkind.symm.trans hinput) hend
      · rename_i hbrace
        exact absurd (hkind.symm.trans hbrace) hclose
      · exact hnext
  | braced openSpan =>
      refine At.look fun token hkind => ?_
      split
      · rename_i hbrace
        exact absurd (hkind.symm.trans hbrace) hclose
      · rename_i hinput
        exact absurd (hkind.symm.trans hinput) hend
      · exact hnext

end At

/-! ## What deferral splices in -/

variable {bound : Nat} {rest : List Char} {scopes : List LexicalScope} {h h' : σ} {cell : CellRef}

/-- The dispatch call is the statement of one round. -/
theorem round_dispatch (hplain : Plain scopes)
    (hresolve : host.resolveGlobal dispatchName h = (cell, h')) :
    Yields (At dispatchKinds rest scopes h) (round host bound (run host bound) level stmts)
      fun step s => (∃ span span', step = .next
        (.expr (.call span (.global span' cell) []) :: stmts)) ∧ At [] rest scopes h' s := by
  refine (At.round (by simp) (by simp) (statement_dispatch hplain)).weaken (fun _ => id) ?_
    (fun _ _ => id)
  rw [hresolve]
  rintro step s ⟨stmt, rfl, ⟨span, span', rfl⟩, hs⟩
  exact ⟨⟨span, span', rfl⟩, hs⟩

/-- A marker takes a round of its own, which adds nothing. -/
theorem round_clear {Q : Buffer → σ → Prop} (hplain : Plain scopes)
    (hresolve : host.resolveGlobal clearName h = (cell, h')) {depth : Nat}
    (hrun : ∀ buffer span e span', buffer.after = rest → Names cell depth e →
      Yields (· = (buffer, h')) (host.runBegin bound (.mk span [.expr e]) span')
        fun _ p => Q p.1 p.2) :
    Yields (At (clearKinds depth) rest scopes h) (round host bound (run host bound) level stmts)
      fun step s => step = .next stmts ∧ s.scopes = scopes ∧ Q s.buffer s.host := by
  have hmarker : Yields (At (clearKinds depth) rest scopes h)
      (beginStmt host bound (run host bound))
      fun _ s => s.scopes = scopes ∧ Q s.buffer s.host := by
    refine beginStmt_clear hplain depth ?_
    rw [hresolve]
    exact hrun
  have hstmt : Yields (At (clearKinds depth) rest scopes h) (statement host bound (run host bound))
      fun stmt s => stmt = none ∧ s.scopes = scopes ∧ Q s.buffer s.host := by
    refine At.look fun token hkind => ?_
    rw [hkind]
    exact Triple.bind hmarker fun _ s hs => ⟨rfl, hs⟩
  refine (At.round (by simp) (by simp) hstmt).weaken (fun _ => id) ?_ (fun _ _ => id)
  rintro step s ⟨stmt, rfl, rfl, hs⟩
  exact ⟨rfl, hs⟩

end Parser

end TwoPhase
