import TwoPhase.Proofs.FinalText
import TwoPhase.Proofs.Parser.Taking

/-!
# The spans of a parse nest

Whatever text is spliced in while a unit is parsed, the spans in its tree nest, and so do those of
every sub and every `begin` block that the host is told of on the way (`runUnit_nests`).  Where a
node is a single token, the final text at its span is the text of that token.

Expressions were dealt with before.  Here are the statements and blocks around them, and the
induction on the bound on nesting.
-/

namespace TwoPhase

namespace Buffer

variable {b c : Buffer}

/-- Behind the end of the text is the end of the text. -/
theorem next_end (h : b.next.1.kind = .endOfInput) : b.next.2.next.1.kind = .endOfInput := by
  have hrest : b.next.2.after = [] := by
    change b.found.rest = []
    change b.found.token.kind = .endOfInput at h
    rw [b.found_eq] at h ⊢
    cases hskip : Scan.skip b.after with
    | nil => exact (Scan.first_of_skip_nil b.cursor hskip).2.2
    | cons c more => exact absurd h (Scan.first_kind_ne_end b.cursor hskip)
  change b.next.2.found.token.kind = .endOfInput
  rw [b.next.2.found_eq, hrest]
  rfl

end Buffer

namespace Parser

open Run (Agrees)

variable {σ α β : Type}

/-- What is known of a statement that may leave nothing in the tree. -/
structure StatementTaken (named : CellRef → String → Prop) (b : Buffer) (stmt : Option Stmt)
    (c : Buffer) : Prop where
  past : b.Past c
  stmt : ∀ found : Stmt, stmt = some found → found.Taken named b c

theorem StatementTaken.of_lookAhead {named : CellRef → String → Prop} {b c : Buffer}
    {stmt : Option Stmt} (h : StatementTaken named b.lookAhead stmt c) :
    StatementTaken named b stmt c :=
  ⟨h.past.of_lookAhead, fun found hfound => (h.stmt found hfound).of_lookAhead⟩

/-- Statements and one more, if there is one. -/
theorem StatementTaken.row {named : CellRef → String → Prop} {low : Nat} {stmts : List Stmt}
    {stmt : Option Stmt} {b c : Buffer} (h : Stmt.Row named low stmts.reverse b)
    (hstmt : StatementTaken named b stmt c) :
    Stmt.Row named low (stmt.toList ++ stmts).reverse c := by
  cases stmt with
  | none => exact h.grow hstmt.past.toGrows
  | some stmt =>
      rw [Option.toList_some, List.singleton_append, List.reverse_cons]
      exact h.snoc (hstmt.stmt stmt rfl)

/-- The block that the loop over statements gives, and what was consumed to end it. -/
def Level.Ended (level : Level) (stmts : List Stmt) (b : Buffer) (body : Block) (c : Buffer) :
    Prop :=
  match level with
  | .unit => body = .mk ⟨0, b.next.1.span.stop⟩ stmts.reverse ∧ c = b.lookAhead
  | .braced openSpan => ∃ close, body = .mk (openSpan.merge close) stmts.reverse ∧ b.Takes close c

namespace Keeper

variable {host : Host σ} {K : Keeper host} {s t : State σ} {rounds : Nat} {again : Again σ}

namespace Parts

variable (h : K.Parts again)

include h

/-! ## Statements -/

theorem condition (s : State σ) : K.Does s (condition again) fun test t =>
    s.buffer.next.1.kind = .parenOpen ∧
      ∃ c, test.Taken host.Gave s.buffer.next.2 c ∧ c.Grows t.buffer :=
  expected fun hopen => (h.expr s.next).bind fun _ t _ htest => expected fun _ =>
    gives ⟨hopen, t.buffer, htest, .next _⟩

theorem letStmt (hkind : s.buffer.next.1.kind ≠ .endOfInput) :
    K.Does s (letStmt again) fun stmt t => stmt.Taken host.Gave s.buffer t.buffer := by
  have hkeyword : s.buffer.Takes s.buffer.next.1.span s.next.buffer := .token hkind
  refine take (named fun name _ => expected fun _ => ?_)
  refine (h.expr _).bind fun value t _ hvalue => terminated fun u hu => ?_
  refine after (t := { u with scopes := declareIn name u.scopes }) rfl
    (.of_grows (.refl _) rfl) (gives ?_)
  have hkeyword := hkeyword.mono ((Buffer.Grows.next _).trans (.next _))
  have hstmt : Stmt.Taken host.Gave s.buffer
      (.define (s.buffer.next.1.span.merge value.span) name value) t.buffer :=
    ⟨hkeyword.join hvalue.takes, .define (hkeyword.holds_one hvalue.takes) hvalue.nests⟩
  exact hstmt.grow hu.grows

theorem returned {keyword : Span} {b : Buffer} (hkeyword : b.Takes keyword s.buffer) :
    K.Does s (returned again keyword) fun stmt t => stmt.Taken host.Gave b t.buffer := by
  have hbare : ∀ {s : State σ}, b.Takes keyword s.buffer → K.Does s
      (do
        expectTerminator
        return Stmt.ret keyword none) fun stmt t => stmt.Taken host.Gave b t.buffer := by
    intro s hkeyword
    refine terminated fun t ht => gives ⟨hkeyword.mono ht.grows, .ret ⟨⟨?_, .nil⟩, ?_⟩ (by simp)⟩
    · exact fun _ hmem => absurd hmem List.not_mem_nil
    · exact hkeyword.proper
  have hlooked : b.Takes keyword s.lookAhead.buffer := hkeyword.mono (.lookAhead _)
  refine look ?_
  split
  · exact hbare hlooked
  · exact hbare hlooked
  · exact hbare hlooked
  · refine (h.expr _).bind fun value t _ hvalue => terminated fun u hu => gives ?_
    have hstmt : Stmt.Taken host.Gave b (.ret (keyword.merge value.span) (some value)) t.buffer :=
      ⟨hlooked.join hvalue.takes,
        .ret (hlooked.holds_one hvalue.takes) (by simpa using hvalue.nests)⟩
    exact hstmt.grow hu.grows

theorem returnStmt (hkind : s.buffer.next.1.kind ≠ .endOfInput) :
    K.Does s (returnStmt again) fun stmt t => stmt.Taken host.Gave s.buffer t.buffer := by
  refine take (after (t := s.next) rfl (.refl _) ?_)
  cases inCallable s.next.scopes with
  | true => exact h.returned (.token hkind)
  | false => exact (fails (Q := fun _ _ => False)).bind fun _ _ _ hfalse => hfalse.elim

theorem conditional (s : State σ) :
    K.Does s (conditional again) fun stmt t => stmt.Taken host.Gave s.buffer t.buffer := by
  refine take ((h.condition s.next).bind fun test t _ htest => ?_)
  obtain ⟨hopen, c, htest, htestGrows⟩ := htest
  -- at the end of the text there is no condition
  have hkind : s.buffer.next.1.kind ≠ .endOfInput := fun hend => by
    have hparen := (Buffer.next_end hend).symm.trans hopen
    cases hparen
  have hkeyword : s.buffer.Takes s.buffer.next.1.span s.next.buffer := .token hkind
  have hkeyword := hkeyword.mono (Buffer.Grows.next s.next.buffer)
  refine (h.innerBlock .block t).bind fun yes u _ hyes => ?_
  have htestTakes := htest.takes.mono htestGrows
  have hstart := hkeyword.mono htestTakes.past.toGrows
  have htestNests := htest.nests.grow (htestGrows.trans hyes.takes.past.toGrows)
  have hrow : Span.InRow s.buffer.next.1.span.start [test.span] t.buffer.cursor :=
    htestTakes.inRow (hkeyword.proper.le.trans hkeyword.stop)
  have hspan := hstart.join hyes.takes
  -- the three parts stand one behind the other
  have hrow' : Span.InRow (s.buffer.next.1.span.merge yes.span).start [test.span, yes.span]
      u.buffer.cursor := by
    rw [hstart.merge_eq hyes.takes]
    exact hrow.append (hyes.takes.inRow (Nat.le_refl _))
  have hend : ∀ (no : Block) {v w : State σ}, u.buffer.Grows v.buffer →
      no.Taken host.Gave v.buffer w.buffer → Stmt.Taken host.Gave s.buffer
        (.cond ((s.buffer.next.1.span.merge yes.span).merge no.span) test yes (some no))
        w.buffer := by
    intro no v w hv hno
    have hspan := hspan.mono hv
    have hgrows := hv.trans hno.takes.past.toGrows
    refine ⟨hspan.join hno.takes, .cond ?_ (htestNests.grow hgrows) (hyes.nests.grow hgrows) ?_⟩
    · exact hspan.holds_last hno.takes (hrow'.mono hv.cursor_le) (Nat.le_refl _)
    · simpa using hno.nests
  refine eaten (fun _ => checked ?_) fun _ => gives ?_
  · cases u.next.buffer.next.1.kind == .kwIf with
    | true =>
        refine (h.inside .conditional .block [] _).bind fun nested w _ hnested => gives ?_
        have hnested : nested.Taken host.Gave u.next.lookAhead.buffer w.buffer := hnested
        refine hend (.mk nested.span [nested]) ((Buffer.Grows.next _).trans (.lookAhead _))
          ⟨hnested.takes, .mk ?_ (by simpa using hnested.nests)⟩
        exact (Span.InRow.one (Nat.le_refl _) hnested.takes.proper (Nat.le_refl _)).holds
          (Nat.le_refl _) (Nat.le_refl _) hnested.takes.proper
    | false =>
        refine (h.innerBlock .block _).bind fun no w _ hno => gives ?_
        exact hend no ((Buffer.Grows.next _).trans (.lookAhead _)) hno
  · refine Stmt.Taken.grow ⟨hspan, .cond ?_ htestNests hyes.nests (by simp)⟩ (.lookAhead _)
    exact hstart.holds_last hyes.takes hrow (Nat.le_refl _)

theorem whileStmt (hkind : s.buffer.next.1.kind ≠ .endOfInput) :
    K.Does s (whileStmt again) fun stmt t => stmt.Taken host.Gave s.buffer t.buffer := by
  have hkeyword : s.buffer.Takes s.buffer.next.1.span s.next.buffer := .token hkind
  refine take ((h.condition s.next).bind fun test t _ htest => ?_)
  obtain ⟨_, c, htest, htestGrows⟩ := htest
  have hkeyword := hkeyword.mono (Buffer.Grows.next s.next.buffer)
  refine (h.innerBlock .block t).bind fun body u _ hbody => gives ?_
  have htestTakes := htest.takes.mono htestGrows
  have hstart := hkeyword.mono htestTakes.past.toGrows
  have hrow : Span.InRow s.buffer.next.1.span.start [test.span] t.buffer.cursor :=
    htestTakes.inRow (hkeyword.proper.le.trans hkeyword.stop)
  refine ⟨hstart.join hbody.takes, .loop ?_ ?_ hbody.nests⟩
  · exact hstart.holds_last hbody.takes hrow (Nat.le_refl _)
  · exact htest.nests.grow (htestGrows.trans hbody.takes.past.toGrows)

theorem exprStmt (s : State σ) :
    K.Does s (exprStmt again) fun stmt t => stmt.Taken host.Gave s.buffer t.buffer := by
  refine (h.expr s).bind fun target t _ htarget => eaten (fun _ => ?_) fun _ => ?_
  · refine (h.expr t.next).bind fun value u _ hvalue => ?_
    have hfirst := htarget.takes.mono (Buffer.Grows.next t.buffer)
    have hspan := hfirst.join hvalue.takes
    have hholds := hfirst.holds_one hvalue.takes
    dsimp only
    split
    · exact terminated fun v hv => gives
        (Stmt.Taken.grow ⟨hspan, .assignLexical hholds hvalue.nests⟩ hv.grows)
    · exact terminated fun v hv => gives
        (Stmt.Taken.grow ⟨hspan, .assignGlobal hholds hvalue.nests⟩ hv.grows)
    · exact fails
  · refine terminated fun u hu => gives ?_
    exact Stmt.Taken.grow ⟨htarget.takes, .expr htarget.nests⟩ (hu.grows.of_lookAhead)

theorem beginStmt (hkind : s.buffer.next.1.kind ≠ .endOfInput) :
    K.Does s (beginStmt host rounds again) fun _ t => s.buffer.Past t.buffer := by
  refine take ((h.innerBlock .beginBlock s.next).bind fun body t _ hbody => ?_)
  have hpast : s.buffer.Past t.buffer :=
    (Buffer.Past.next hkind).mono hbody.takes.past.toGrows
  obtain ⟨buffer, scopes, x⟩ := t
  have hgoes : ∀ {result c y}, (host.runBegin rounds body
      (s.buffer.next.1.span.merge body.span)).run? (buffer, x) = some (result, (c, y)) →
      K.Goes ⟨buffer, scopes, x⟩ ⟨c, scopes, y⟩ := by
    intro result c y hrun
    have hspliced := K.splices hrun
    exact ⟨.of_spliced hspliced, fun hx => K.begins hbody.nests hx hrun hspliced⟩
  simp only [Agrees, runBegin]
  cases hrun : host.runBegin rounds body (s.buffer.next.1.span.merge body.span) (buffer, x) with
  | value _ q =>
      have hgoes := hgoes (Run.run?_eq_ok.2 hrun)
      exact ⟨trivial, hgoes, hpast.mono hgoes.grows⟩
  | error e q => exact ⟨trivial, hgoes (Run.run?_eq_error.2 hrun), trivial⟩
  | cutOff => exact ⟨trivial, trivial⟩

theorem subStmt (hkind : s.buffer.next.1.kind ≠ .endOfInput) :
    K.Does s (subStmt host rounds again) fun _ t => s.buffer.Past t.buffer := by
  have hkeyword : s.buffer.Takes s.buffer.next.1.span s.next.buffer := .token hkind
  refine take (identified fun found _ => ?_)
  refine (h.function _ .sub _ (hkeyword.mono (.next _))).bind fun f t _ hf => ?_
  exact .update ⟨.refl _, K.installs found.1 hf.nests⟩ hf.takes.past

theorem statement (s : State σ) : K.Does s (statement host rounds again) fun stmt t =>
    StatementTaken host.Gave s.buffer stmt t.buffer := by
  have hkind : ∀ {kind}, s.buffer.next.1.kind = kind → kind ≠ .endOfInput →
      s.lookAhead.buffer.next.1.kind ≠ .endOfInput := by
    rintro _ rfl hne
    rwa [State.buffer_lookAhead, Buffer.next_lookAhead]
  have hnone : ∀ {body : Parse σ Unit},
      K.Does s.lookAhead body (fun _ t => s.lookAhead.buffer.Past t.buffer) →
      K.Does s.lookAhead (body >>= fun _ => pure none) fun stmt t =>
        StatementTaken host.Gave s.buffer stmt t.buffer :=
    fun hbody => hbody.bind fun _ _ _ ht => gives ⟨ht.of_lookAhead, by simp⟩
  have hsome : ∀ {body : Parse σ Stmt},
      K.Does s.lookAhead body (fun stmt t => stmt.Taken host.Gave s.lookAhead.buffer t.buffer) →
      K.Does s.lookAhead (some <$> body) fun stmt t =>
        StatementTaken host.Gave s.buffer stmt t.buffer := by
    intro body hbody
    rw [map_eq_pure_bind]
    refine hbody.bind fun stmt t _ hstmt => gives ⟨hstmt.takes.past.of_lookAhead, ?_⟩
    rintro _ ⟨⟩
    exact hstmt.of_lookAhead
  refine look ?_
  split
  · rename_i hsemicolon
    refine take (gives ⟨?_, by simp⟩)
    rw [State.next_lookAhead]
    exact .next (by simp [hsemicolon])
  · exact hnone (h.beginStmt (hkind ‹_› (by simp)))
  · exact hnone (h.subStmt (hkind ‹_› (by simp)))
  · exact hsome (h.letStmt (hkind ‹_› (by simp)))
  · exact hsome (h.returnStmt (hkind ‹_› (by simp)))
  · exact hsome (h.conditional _)
  · exact hsome (h.whileStmt (hkind ‹_› (by simp)))
  · rw [blockStmt_eq]
    exact hsome ((h.innerBlock .block _).bind fun body t _ hbody =>
      gives ⟨hbody.takes, .block hbody.nests⟩)
  · exact hsome (h.exprStmt _)

/-! ## Blocks -/

/-- A round takes one more statement, or what ends the loop. -/
theorem round (level : Level) (stmts : List Stmt) (s : State σ) :
    K.Does s (round host rounds again level stmts) fun step t => match step with
      | .next more => ∃ stmt, more = stmt.toList ++ stmts ∧
          StatementTaken host.Gave s.buffer stmt t.buffer
      | .done body => level.Ended stmts s.buffer body t.buffer := by
  have honeMore : K.Does s.lookAhead (do
      let stmt ← Parser.statement host rounds again
      return .next (stmt.toList ++ stmts) : Parse σ (Run.Step (List Stmt) Block))
      fun step t => match step with
        | .next more => ∃ stmt, more = stmt.toList ++ stmts ∧
            StatementTaken host.Gave s.buffer stmt t.buffer
        | .done body => level.Ended stmts s.buffer body t.buffer :=
    (h.statement s.lookAhead).bind fun stmt t _ hstmt => gives ⟨stmt, rfl, hstmt.of_lookAhead⟩
  cases level with
  | unit =>
      refine look ?_
      split
      · exact gives ⟨rfl, rfl⟩
      · exact fails
      · exact honeMore
  | braced openSpan =>
      refine look ?_
      split
      · rename_i hclose
        refine take (gives ⟨_, rfl, ?_⟩)
        rw [State.next_lookAhead]
        exact .token (by simp [hclose])
      · exact fails
      · exact honeMore

theorem block (kind : ScopeKind) (s : State σ) :
    K.Does s (block host rounds again kind) fun body t =>
      body.Taken host.Gave s.buffer t.buffer := by
  rw [block_eq]
  refine expected fun hopen => inScope fun scopes => ?_
  have hfirst : s.buffer.Takes s.buffer.next.1.span s.next.buffer := .token (by simp [hopen])
  refine .iterate (J := fun stmts t =>
      Stmt.Row host.Gave s.next.buffer.cursor stmts.reverse t.buffer ∧
        s.next.buffer.Grows t.buffer)
    (fun stmts t ht => ?_) rounds [] ⟨⟨Nat.le_refl _, by simp⟩, .refl _⟩
  obtain ⟨hstmts, hgrows⟩ := ht
  refine (h.round _ stmts t).weaken (fun _ hu => hu) (fun step u _ hstep => ?_)
    fun _ _ _ _ => trivial
  cases step with
  | next more =>
      obtain ⟨stmt, rfl, hstmt⟩ := hstep
      exact ⟨hstmt.row hstmts, hgrows.trans hstmt.past.toGrows⟩
  | done body =>
      obtain ⟨close, rfl, hlast⟩ := hstep
      have hstart := hfirst.mono hgrows
      refine ⟨hstart.join hlast, .mk (hstart.holds hlast hstmts.spans ?_) ?_⟩
      · exact Buffer.start_le_next s.buffer
      · exact (hstmts.grow hlast.past.toGrows).nests

theorem unit (s : State σ) : K.Does s (unit host rounds again) fun body t =>
    body.UnitNests host.Gave t.buffer.behind t.buffer.consumed := by
  rw [unit_eq]
  refine inScope fun scopes => ?_
  refine .iterate (J := fun stmts t => Stmt.Row host.Gave 0 stmts.reverse t.buffer)
    (fun stmts t hstmts => ?_) rounds [] ⟨Nat.zero_le _, by simp⟩
  refine (h.round .unit stmts t).weaken (fun _ hu => hu) (fun step u _ hstep => ?_)
    fun _ _ _ _ => trivial
  cases step with
  | next more =>
      obtain ⟨stmt, rfl, hstmt⟩ := hstep
      exact hstmt.row hstmts
  | done body =>
      obtain ⟨rfl, hu⟩ := hstep
      rw [hu]
      refine ⟨hstmts.spans.bounds (Nat.le_refl _) ?_, hstmts.nests⟩
      exact (Buffer.cursor_le_next t.buffer).trans (Buffer.start_le_next t.buffer)

end Parts

/-! ## Whole parses -/

theorem parts (K : Keeper host) (bound : Nat) : K.Parts (run host bound) := by
  induction bound with
  | zero => exact fun _ _ => ⟨rfl, trivial⟩
  | succ bound ih =>
      intro α goal s
      change K.Does s (run host (bound + 1) goal) fun a t =>
        goal.Taken host.Gave s.buffer a t.buffer
      rw [run_succ]
      cases goal with
      | expr => exact ih.joined 6 s
      | joined limit => exact ih.joined limit s
      | unary => exact ih.unary s
      | block kind => exact ih.block kind s
      | conditional => exact ih.conditional s

end Keeper

end Parser

/-! ## What the host is told -/

/-- The spans of what a host is told nest. -/
def Happening.Nests (named : CellRef → String → Prop) (text : List Char) (tokens : List Token) :
    Happening → Prop
  | installed _ function => function.Nests named text tokens
  | ran body _ _ => body.Nests named text tokens

theorem Happening.Nests.grow {named : CellRef → String → Prop} {told : Happening} {b c : Buffer}
    (h : told.Nests named b.behind b.consumed) (hgrows : b.Grows c) :
    told.Nests named c.behind c.consumed := by
  cases told with
  | installed name function => exact Function.Nests.mono hgrows.behind hgrows.mem h
  | ran body span failed => exact Block.Nests.mono hgrows.behind hgrows.mem h

/-- To write down what happens changes no cell. -/
theorem Host.gave_recorded {σ : Type} (host : Host σ) : host.recorded.Gave = host.Gave := by
  funext cell name
  exact propext ⟨fun ⟨h, hcell⟩ => ⟨h.1, hcell⟩, fun ⟨h, hcell⟩ => ⟨(h, []), hcell⟩⟩

namespace Parser

variable {σ : Type} {host : Host σ}

/-- All that the host was told nests. -/
def Keeper.told (hsplices : host.Splices) : Keeper host.recorded where
  Holds b h := ∀ told ∈ h.2, told.Nests host.recorded.Gave b.behind b.consumed
  splices := by
    intro left body span buffer s result buffer' s' hrun
    obtain ⟨s, log⟩ := s
    unfold Run.run? Host.recorded at hrun
    dsimp only at hrun
    cases hend : host.runBegin left body span (buffer, s) with
    | value a q =>
        rw [hend] at hrun
        cases hrun
        exact hsplices (Run.run?_eq_ok.2 hend)
    | error e q =>
        rw [hend] at hrun
        cases hrun
        exact hsplices (Run.run?_eq_error.2 hend)
    | cutOff =>
        rw [hend] at hrun
        cases hrun
  grows := fun hgrows h told hmem => (h told hmem).grow hgrows
  resolves := fun _ => id
  installs := by
    intro b h name function hfunction hall told hmem
    rcases List.mem_cons.1 hmem with rfl | hmem
    · exact hfunction
    · exact hall told hmem
  begins := by
    intro b h left body span result c h' hbody hall hrun hspliced told hmem
    have hgrows : b.Grows c := .of_spliced hspliced
    obtain ⟨x, log⟩ := h
    -- the block is written down whether it failed or not
    have hlog : ∃ failed, h'.2 = .ran body span failed :: log := by
      unfold Run.run? Host.recorded at hrun
      dsimp only at hrun
      cases hend : host.runBegin left body span (b, x) with
      | value a q =>
          rw [hend] at hrun
          cases hrun
          exact ⟨false, rfl⟩
      | error e q =>
          rw [hend] at hrun
          cases hrun
          exact ⟨true, rfl⟩
      | cutOff =>
          rw [hend] at hrun
          cases hrun
    obtain ⟨failed, hlog⟩ := hlog
    rw [hlog] at hmem
    rcases List.mem_cons.1 hmem with rfl | hmem
    · exact Block.Nests.mono hgrows.behind hgrows.mem hbody
    · exact (hall told hmem).grow hgrows

/-- Whatever is spliced in while a unit is parsed, and however the parse ends, the spans of every
sub and every `begin` block that the host was told of nest, and so do those of the unit if there is
one: the span of each node holds those of its children, which stand one behind the other.  No node
but the unit is empty, and where one is a single token, the final text at its span is the text of
that token, perhaps in parentheses with blanks and comments. -/
theorem runUnit_nests (hsplices : host.Splices) (bound : Nat) (source : String) (h : σ)
    {result : Except CompileError Block} {p : State (σ × List Happening)}
    (hrun : (runUnit host.recorded bound).run? (.start source (h, [])) = some (result, p)) :
    (∀ told ∈ p.host.2, told.Nests host.Gave p.buffer.chars p.buffer.consumed) ∧
      ∀ unit, result = .ok unit → unit.UnitNests host.Gave p.buffer.chars p.buffer.consumed := by
  rw [← host.gave_recorded]
  let K := Keeper.told hsplices
  have hdoes : K.Does (.start source (h, [])) (runUnit host.recorded bound) fun unit q =>
      unit.UnitNests host.recorded.Gave q.buffer.behind q.buffer.consumed :=
    Keeper.Parts.unit (K.parts bound) _
  have hbehind := p.buffer.behind_le
  constructor
  · have hgoes : K.Goes (.start source (h, [])) p := hdoes.leads hrun
    have htold := hgoes.holds fun _ hmem => absurd hmem List.not_mem_nil
    intro told hmem
    have hnests := htold told hmem
    cases told with
    | installed name function => exact Function.Nests.mono hbehind (fun _ => id) hnests
    | ran body span failed => exact Block.Nests.mono hbehind (fun _ => id) hnests
  · rintro unit rfl
    have hunit := (hdoes.value (Run.run?_eq_ok.1 hrun)).2
    exact ⟨hunit.bounds, fun stmt hmem => (hunit.stmts stmt hmem).mono hbehind fun _ => id⟩

/-- A block that is put off splices in a call and another block, in front of what follows. -/
theorem runUnit_nests_deferral : ∃ tree p,
    runUnit (Interpreter.host 30 (Interpreter.run 30)).recorded 30
        (.start "begin { at_runtime(fn() { }); } let x = ( 1 ); f(-x);"
          ((Session.start .default).enterUnit "main" .main none "", [])) = .value tree p ∧
      tree.stmts.length = 3 ∧ p.host.2.length = 2 ∧
      tree.UnitNests (Interpreter.host 30 (Interpreter.run 30)).Gave p.buffer.chars
        p.buffer.consumed ∧
      ∀ told ∈ p.host.2, told.Nests (Interpreter.host 30 (Interpreter.run 30)).Gave p.buffer.chars
        p.buffer.consumed := by
  have htest : (runUnit (Interpreter.host 30 (Interpreter.run 30)).recorded 30
      (.start "begin { at_runtime(fn() { }); } let x = ( 1 ); f(-x);"
        ((Session.start .default).enterUnit "main" .main none "", []))).valueWith (fun tree p =>
        tree.stmts.length = 3 ∧ p.host.2.length = 2) = true := by
    decide +kernel
  obtain ⟨tree, p, hrun, hlengths⟩ := Run.Outcome.exists_value htest
  have hlengths := of_decide_eq_true hlengths
  have hnests := runUnit_nests (Interpreter.host_splices 30 30) 30
    "begin { at_runtime(fn() { }); } let x = ( 1 ); f(-x);"
    ((Session.start .default).enterUnit "main" .main none "") (Run.run?_eq_ok.2 hrun)
  exact ⟨tree, p, hrun, hlengths.1, hlengths.2, hnests.2 tree rfl, hnests.1⟩

end Parser

end TwoPhase
