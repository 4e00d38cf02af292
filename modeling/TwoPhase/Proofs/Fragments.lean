import TwoPhase.Proofs.FinalText
import TwoPhase.Proofs.Parser.Completeness
import TwoPhase.Proofs.Interpreter.Clearing

/-!
# Fragments read back

The first block put off at a depth splices a fragment into the text: a dispatch call, and a marker
with the depth in decimal.  What the parser makes of the fragment is what it was written for.

* Its tokens are known, and so are the statements they give, if parsing them ends with a value
  (`round_dispatch`, `block_clear`).
* It does end with a value, since both calls are written as the grammar wants them (`expr_ends`).

The fragment takes two rounds of the loop over statements that it is in, and the marker hands the
depth to the clearing sub.
-/

namespace TwoPhase

open Scan (Reads)

variable {σ : Type} {kind stop : TokenKind} {kinds more : List TokenKind} {rest : List Char}

/-! ## Tokens -/

/-- Tokens that the text ahead starts with are passed. -/
theorem Buffer.exists_passes {b : Buffer} (h : Reads b.after (kinds ++ more) rest) :
    ∃ c, b.Passes kinds c ∧ Reads c.after more rest := by
  induction kinds generalizing b with
  | nil => exact ⟨b, rfl, h⟩
  | cons kind kinds ih =>
      obtain ⟨hkind, hbehind⟩ := next_reads h
      obtain ⟨c, hpasses, hmore⟩ := ih hbehind
      exact ⟨c, ⟨hkind, hpasses⟩, hmore⟩

namespace Parser

variable {host : Host σ} {again : Again σ} {bound rounds depth : Nat} {level : Level}
  {stmts : List Stmt} {s t : State σ}

/-! ## Parses that end -/

/-- What is written as an expression is parsed, up to the token behind it. -/
theorem expr_ends (hnames : host.Names) {term : Term} (hwritten : Written .or kinds term)
    (hreads : Reads s.buffer.after (kinds ++ stop :: more) rest) (hstop : ¬stop.Continues)
    (hbound : kinds.length < bound) :
    ∃ e t, run host bound .expr s = .value e t ∧ t.buffer.next.1.kind = stop := by
  obtain ⟨c, hpasses, hmore⟩ := Buffer.exists_passes hreads
  have hnext := (Buffer.next_reads hmore).1
  have hjoins : Joins host 6 kinds term := Written.meets hnames hwritten
  obtain ⟨e, t, hrun, -, ht⟩ := hjoins.expr hbound hpasses (hnext ▸ hstop)
  exact ⟨e, t, hrun, by rw [Buffer.next_congr ht, hnext]⟩

/-- An expression that is not assigned to is a statement if it is ended as one. -/
theorem exprStmt_apply {e : Expr} (hexpr : again .expr s = .value e t)
    (hassign : t.buffer.next.1.kind ≠ .assign) :
    exprStmt again s = (do
      expectTerminator
      return .expr e : Parse σ Stmt) t.lookAhead := by
  simp only [exprStmt, Run.bind_apply, hexpr, eat_apply, if_neg hassign, Bool.false_eq_true,
    if_false]

theorem exprStmt_semicolon_apply {e : Expr} (hexpr : again .expr s = .value e t)
    (hend : t.buffer.next.1.kind = .semicolon) : exprStmt again s = .value (.expr e) t.next := by
  rw [exprStmt_apply hexpr (by simp [hend])]
  simp only [expectTerminator, Run.bind_apply, eat_apply, State.buffer_lookAhead,
    Buffer.next_lookAhead, hend, if_true, State.next_lookAhead, Run.pure_apply]

theorem exprStmt_brace_apply {e : Expr} (hexpr : again .expr s = .value e t)
    (hend : t.buffer.next.1.kind = .braceClose) :
    exprStmt again s = .value (.expr e) t.lookAhead := by
  rw [exprStmt_apply hexpr (by simp [hend])]
  simp only [expectTerminator, Run.bind_apply, eat_apply, State.buffer_lookAhead,
    Buffer.next_lookAhead, hend, reduceCtorEq, if_false, Bool.false_eq_true, peek_apply,
    State.lookAhead_lookAhead, Run.pure_apply]

/-- A statement that starts with an identifier is read in a round. -/
theorem round_ident {name : String} {stmt : Stmt} (hkind : s.buffer.next.1.kind = .ident name)
    (hstmt : exprStmt again s.lookAhead = .value stmt t) :
    round host rounds again level stmts s = .value (.next (stmt :: stmts)) t := by
  have hfound : s.buffer.found.token.kind = .ident name := hkind
  have hstatement : statement host rounds again s.lookAhead = .value (some stmt) t := by
    simp only [statement, Run.bind_apply, peek_apply, State.buffer_lookAhead, Buffer.next_lookAhead,
      hkind, State.lookAhead_lookAhead, map_eq_pure_bind, hstmt, Function.comp_apply,
      Run.pure_apply]
  have hpeeked : ({ s with buffer := s.buffer.peek.2 } : State σ) = s.lookAhead := by
    rw [Buffer.snd_peek]
    rfl
  rw [round_statement (by simp [hfound]) (by simp [hfound]), hpeeked, Run.bind_apply, hstatement]
  rfl

/-! ## The fragment -/

/-- A call of a global with some arguments. -/
def CallsGlobal (cell : CellRef) (args : List Expr) (e : Expr) : Prop :=
  ∃ span nameSpan, e = .call span (.global nameSpan cell) args

/-- A call is an expression. -/
theorem Written.of_call {term : Term} (h : Written .call kinds term) : Written .or kinds term :=
  .looser (.looser (.looser (.looser (.looser (.looser (.looser h))))))

theorem written_dispatch :
    Written .or [.ident dispatchName, .parenOpen, .parenClose] (.call (.name dispatchName) []) :=
  Written.of_call (.call ((Written.name dispatchName).anywhere _) .nil)

theorem written_clear {value : Int64} (hvalue : 0 ≤ value) :
    Written .or [.ident clearName, .parenOpen, .int value, .parenClose]
      (.call (.name clearName) [.int value]) :=
  Written.of_call
    (.call ((Written.name clearName).anywhere _) (.last ((Written.int hvalue).anywhere _)))

/-- The dispatch call is read in a round. -/
theorem round_dispatch_call (hnames : host.Names) (hplain : Plain s.scopes)
    (hreads : Reads s.buffer.after dispatchKinds rest) (hbound : 3 < bound) (level : Level)
    (stmts : List Stmt) :
    let dispatch := host.resolveGlobal dispatchName s.host
    ∃ call t, CallsGlobal dispatch.1 [] call ∧ At [] rest s.scopes dispatch.2 t ∧
      round host bound (run host bound) level stmts s = .value (.next (.expr call :: stmts)) t := by
  intro dispatch
  obtain ⟨e, t, hrun, hstop⟩ := expr_ends (s := s.lookAhead) hnames written_dispatch hreads
    (not_continues (by simp) rfl) hbound
  have hround : round host bound (run host bound) level stmts s
      = .value (.next (.expr e :: stmts)) t.next :=
    round_ident (Buffer.next_reads hreads).1 (exprStmt_semicolon_apply hrun hstop)
  have hresolve : host.resolveGlobal dispatchName s.host = (dispatch.1, dispatch.2) := rfl
  obtain ⟨⟨span, nameSpan, hstep⟩, ht⟩ :=
    (round_dispatch hplain hresolve).value ⟨hreads, rfl, rfl⟩ hround
  exact ⟨_, t.next, ⟨span, nameSpan, rfl⟩, ht, hstep ▸ hround⟩

/-- The block of a marker is read: in a round for the call, and one for the closing brace. -/
theorem block_clear_ends (hnames : host.Names) (hdepth : depth ≤ Scan.maxValue)
    (hreads : Reads s.buffer.after (clearKinds depth).tail rest) (hbound : 5 < bound) :
    ∃ body t, run host bound (.block .beginBlock) s = .value body t := by
  obtain ⟨bound, rfl⟩ : ∃ m, bound = m + 3 := ⟨bound - 3, by omega⟩
  rw [clearKinds, Scan.numberKind_of_le hdepth] at hreads
  obtain ⟨hopen, hinside⟩ := Buffer.next_reads hreads
  let inner : State σ := { s.next with scopes := .declaring .beginBlock [] :: s.scopes }
  have hroom : 4 < bound + 2 := by omega
  obtain ⟨e, t, hrun, hstop⟩ := expr_ends (s := inner.lookAhead) hnames
    (written_clear (Scan.ofNat_nonneg hdepth)) hinside (not_continues (by simp) rfl) hroom
  have hstmt : round host (bound + 2) (run host (bound + 2)) (.braced s.buffer.next.1.span) [] inner
      = .value (.next [.expr e]) t.lookAhead :=
    round_ident (Buffer.next_reads hinside).1 (exprStmt_brace_apply hrun hstop)
  have hclose : t.lookAhead.buffer.next.1.kind = .braceClose := by
    rwa [State.buffer_lookAhead, Buffer.next_lookAhead]
  rw [run_succ, parse, block_eq, Run.bind_apply, expect_apply hopen]
  simp only [inScope, Run.bind_apply, Run.modify_apply, Run.ensuring]
  change ∃ body t, Run.Outcome.mapState (Run.iterate _ _ _ inner) _ = _
  rw [iterate_next hstmt, iterate_done (Nat.succ_pos _) (round_close hclose)]
  exact ⟨_, _, rfl⟩

/-- A marker is read in a round, which runs its block. -/
theorem round_marker_call (hnames : host.Names) (hplain : Plain s.scopes)
    (hdepth : depth ≤ Scan.maxValue) (hreads : Reads s.buffer.after (clearKinds depth) rest)
    (hbound : 5 < bound) (level : Level) :
    let clear := host.resolveGlobal clearName s.host
    ∃ call span bodySpan literalSpan buffer,
      CallsGlobal clear.1 [.int literalSpan (Int64.ofNat depth)] call ∧ buffer.after = rest ∧
      ∀ stmts, round host bound (run host bound) level stmts s = (do
        runBegin host bound (.mk bodySpan [.expr call]) span
        return .next stmts : Parse σ (Run.Step (List Stmt) Block)) ⟨buffer, s.scopes, clear.2⟩ := by
  intro clear
  obtain ⟨hbegin, hbehind⟩ := Buffer.next_reads hreads
  obtain ⟨body, t, hblock⟩ := block_clear_ends (s := s.next) hnames hdepth hbehind hbound
  obtain ⟨⟨bodySpan, call, rfl, _, span, nameSpan, literalSpan, rfl⟩, ht⟩ :=
    (block_clear hplain depth).value (s := s.next) ⟨hbehind, rfl, rfl⟩ hblock
  have hhost : t.host = clear.2 := ht.host
  have hend : t = ⟨t.buffer, s.scopes, clear.2⟩ := by
    rw [← ht.scopes, ← hhost]
  refine ⟨_, s.buffer.found.token.span.merge bodySpan, bodySpan, literalSpan, t.buffer,
    ⟨span, nameSpan, rfl⟩, ht.reads.eq_of_nil, fun stmts => ?_⟩
  rw [← hend]
  exact round_begin_eq hbegin hblock

/-! ## Round trip -/

/-- Wherever a statement may start, the text that is spliced in for a depth is read in two rounds.
The first adds a call of the dispatch function, without arguments, to the statements.  The second
adds nothing: it runs a `begin` block whose body is a call of the clearing sub with one literal, while
the text behind is still ahead.  Given the value of the literal, the clearing sub asks for just that
depth to be cleared. -/
theorem fragment_read_back (hnames : host.Names) (hplain : Plain s.scopes)
    (hdepth : depth ≤ Scan.maxValue) (hbound : 5 < bound)
    (hahead : Scan.skip s.buffer.after = (dispatchFragment depth).toList ++ rest) (level : Level)
    (stmts : List Stmt) :
    let dispatch := host.resolveGlobal dispatchName s.host
    let clear := host.resolveGlobal clearName dispatch.2
    ∃ call marker span bodySpan literalSpan buffer,
      CallsGlobal dispatch.1 [] call ∧
      CallsGlobal clear.1 [.int literalSpan (Int64.ofNat depth)] marker ∧
      buffer.after = rest ∧
      (∀ k, Run.iterate (k + 2) (round host bound (run host bound) level) stmts s
        = (do
          runBegin host bound (.mk bodySpan [.expr marker]) span
          Run.iterate k (round host bound (run host bound) level) (.expr call :: stmts) :
            Parse σ Block) ⟨buffer, s.scopes, clear.2⟩) ∧
      ∀ rounds again, (do
          let value ← Interpreter.expr rounds again (.int literalSpan (Int64.ofNat depth))
          Interpreter.callBuiltin rounds again .clear [value])
        = (do
          let result ← modifyGet (·.withDeferral (·.clear Interpreter.State.site depth))
          Interpreter.orHookFault result
          modify (·.record (.cleared depth))
          return .nil : Eval Value) := by
  intro dispatch clear
  have hskip : Scan.skip s.buffer.after
      = Scan.skip ((dispatchFragment depth).toList ++ rest) := by
    rw [hahead, toList_dispatchFragment]
    rfl
  obtain ⟨call, t, hcall, ht, hfirst⟩ := round_dispatch_call hnames hplain
    (.of_skip hskip (reads_dispatchFragment depth rest)) (by omega : 3 < bound) level stmts
  have hmarker : Reads t.buffer.after (clearKinds depth) rest := by
    rw [ht.reads.eq_of_nil]
    exact .of_skip (Scan.skip_blank rfl _) (reads_clearFragment depth rest)
  obtain ⟨marker, span, bodySpan, literalSpan, buffer, hclear, hbuffer, hsecond⟩ :=
    round_marker_call hnames (ht.scopes ▸ hplain) hdepth hmarker hbound level
  rw [ht.host] at hclear hsecond
  rw [ht.scopes] at hsecond
  refine ⟨call, marker, span, bodySpan, literalSpan, buffer, hcall, hclear, hbuffer, fun k => ?_,
    fun rounds again => ?_⟩
  · rw [iterate_next hfirst, Run.iterate, hsecond, Run.bind_apply, Run.bind_apply]
    cases runBegin host bound (.mk bodySpan [.expr marker]) span ⟨buffer, s.scopes, clear.2⟩ <;> rfl
  · have hvalue : Interpreter.expr rounds again (.int literalSpan (Int64.ofNat depth))
        = pure (.int (Int64.ofNat depth)) := rfl
    rw [hvalue, pure_bind, Interpreter.callBuiltin_clear rounds again hdepth]
    simp only [Interpreter.clearDepth, bind_assoc]

/-- The largest depth that a literal can hold, at the start of a unit, in front of another
statement.  The host runs no blocks, so only the dispatch call is left of the text. -/
theorem fragment_read_back_largest :
    let depth := Scan.maxValue
    let s : State Unit := .start (dispatchFragment depth ++ " f();") ()
    let step := round Host.silent 6 (run Host.silent 6) .unit
    (depth ≤ Scan.maxValue ∧ Plain s.scopes ∧
      Scan.skip s.buffer.after = (dispatchFragment depth).toList ++ " f();".toList) ∧
    ∃ call marker literalSpan buffer, CallsGlobal ⟨0, dispatchName⟩ [] call ∧
      CallsGlobal ⟨0, clearName⟩ [.int literalSpan (Int64.ofNat depth)] marker ∧
      buffer.after = " f();".toList ∧
      ∀ k, Run.iterate (k + 2) step [] s = Run.iterate k step [.expr call] ⟨buffer, [], ()⟩ := by
  intro depth s step
  have hnames : Host.silent.Names := fun _ _ => rfl
  have hdepth : depth ≤ Scan.maxValue := Nat.le_refl _
  have hahead : Scan.skip s.buffer.after = (dispatchFragment depth).toList ++ " f();".toList := by
    change Scan.skip (dispatchFragment depth ++ " f();").toList = _
    rw [String.toList_append, toList_dispatchFragment]
    rfl
  obtain ⟨call, marker, span, bodySpan, literalSpan, buffer, hcall, hmarker, hbuffer, hrun, -⟩ :=
    fragment_read_back hnames Plain.nil hdepth (by decide : 5 < 6) hahead .unit []
  exact ⟨⟨hdepth, Plain.nil, hahead⟩, call, marker, literalSpan, buffer, hcall, hmarker, hbuffer,
    fun k => (hrun k).trans rfl⟩

end Parser

end TwoPhase
