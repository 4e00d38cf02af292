import TwoPhase.Proofs.Parser.Invariant
import TwoPhase.Proofs.Reads

/-!
# Parsing known text

What the parser makes of text whose tokens are known: a call with a path as its callee, as a
statement, and a block that holds just one.  These are the two statements that deferral splices in.
-/

namespace TwoPhase

open Scan (Reads)

theorem Buffer.next_reads {b : Buffer} {kind : TokenKind} {kinds : List TokenKind}
    {rest : List Char} (h : Reads b.after (kind :: kinds) rest) :
    b.next.1.kind = kind ∧ Reads b.next.2.after kinds rest := by
  have hfirst := h.first b.cursor
  rwa [← b.found_eq] at hfirst

namespace Parser

open Run (Triple Yields)

variable {σ α β : Type}

/-- A parse at text that starts with tokens of some kinds, before some rest. -/
structure At (kinds : List TokenKind) (rest : List Char) (scopes : List LexicalScope) (h : σ)
    (s : State σ) : Prop where
  reads : Reads s.buffer.after kinds rest
  scopes : s.scopes = scopes
  host : s.host = h

namespace At

variable {kind : TokenKind} {kinds : List TokenKind} {rest : List Char}
  {scopes : List LexicalScope} {h : σ} {Q : α → State σ → Prop}

/-! ## Tokens -/

theorem peek : Yields (At (kind :: kinds) rest scopes h) peek
    (fun token s => token.kind = kind ∧ At (kind :: kinds) rest scopes h s) := by
  rintro ⟨b, scopes, h⟩ ⟨hreads, rfl, rfl⟩
  have hkind : b.found.token.kind = kind := (Buffer.next_reads hreads).1
  change b.peek.1.kind = kind ∧ At (kind :: kinds) rest scopes h ⟨b.peek.2, scopes, h⟩
  unfold Buffer.peek
  split
  · rename_i found hpeeked
    rw [Buffer.found, hpeeked] at hkind
    exact ⟨hkind, hreads, rfl, rfl⟩
  · rw [b.found_eq] at hkind
    exact ⟨hkind, hreads, rfl, rfl⟩

/-- A parse that looks at the next token first. -/
theorem look {body : Token → Parse σ α}
    (hbody : ∀ token, token.kind = kind →
      Yields (At (kind :: kinds) rest scopes h) (body token) Q) :
    Yields (At (kind :: kinds) rest scopes h) (Parser.peek >>= body) Q :=
  peek.bind fun token => .assume (hbody token)

theorem advance : Yields (At (kind :: kinds) rest scopes h) advance
    (fun token s => token.kind = kind ∧ At kinds rest scopes h s) := by
  rintro ⟨b, scopes, h⟩ ⟨hreads, rfl, rfl⟩
  obtain ⟨hkind, hbehind⟩ := Buffer.next_reads hreads
  exact ⟨hkind, hbehind, rfl, rfl⟩

/-- A parse that consumes the next token first. -/
theorem take {body : Token → Parse σ α}
    (hbody : ∀ token, token.kind = kind → Yields (At kinds rest scopes h) (body token) Q) :
    Yields (At (kind :: kinds) rest scopes h) (Parser.advance >>= body) Q :=
  advance.bind fun token => .assume (hbody token)

theorem check (other : TokenKind) {next : Bool → Parse σ α}
    (hnext : Yields (At (kind :: kinds) rest scopes h) (next (kind == other)) Q) :
    Yields (At (kind :: kinds) rest scopes h) (check other >>= next) Q := by
  refine Triple.bind
    (Q := fun found s => found = (kind == other) ∧ At (kind :: kinds) rest scopes h s)
    (look fun token hkind s hs => ⟨by rw [hkind], hs⟩) fun found => .assume ?_
  rintro rfl
  exact hnext

theorem expect {next : Token → Parse σ α}
    (hnext : ∀ token, Yields (At kinds rest scopes h) (next token) Q) :
    Yields (At (kind :: kinds) rest scopes h) (expect kind >>= next) Q := by
  refine Triple.bind (Q := fun _ => At kinds rest scopes h) (look fun token hkind => ?_) hnext
  rw [if_pos hkind]
  exact advance.weaken (fun _ => id) (fun _ _ hs => hs.2) (fun _ _ => id)

theorem eat {next : Bool → Parse σ α} (hnext : Yields (At kinds rest scopes h) (next true) Q) :
    Yields (At (kind :: kinds) rest scopes h) (eat kind >>= next) Q := by
  refine Triple.bind (Q := fun eaten s => eaten = true ∧ At kinds rest scopes h s) ?_ fun eaten =>
    .assume ?_
  · refine check kind ?_
    rw [beq_self_eq_true]
    exact take fun _ _ s hs => ⟨rfl, hs⟩
  · rintro rfl
    exact hnext

theorem spare {other : TokenKind} (hne : kind ≠ other) {next : Bool → Parse σ α}
    (hnext : Yields (At (kind :: kinds) rest scopes h) (next false) Q) :
    Yields (At (kind :: kinds) rest scopes h) (Parser.eat other >>= next) Q := by
  refine Triple.bind
    (Q := fun eaten s => eaten = false ∧ At (kind :: kinds) rest scopes h s) ?_ fun eaten =>
    .assume ?_
  · refine check other ?_
    rw [beq_eq_false_iff_ne.2 hne]
    exact fun s hs => ⟨rfl, hs⟩
  · rintro rfl
    exact hnext

end At

/-! ## Expressions -/

variable {host : Host σ} {rounds : Nat} {again : Again σ} {kind stop : TokenKind}
  {kinds more : List TokenKind} {rest : List Char} {scopes : List LexicalScope} {h h' : σ}
  {R : Expr → Prop}

/-- A parse of known text to an expression with some property, which stops at a token of some
kind. -/
abbrev Gives (P : State σ → Prop) (body : Parse σ Expr) (R : Expr → Prop) (kinds : List TokenKind)
    (rest : List Char) (scopes : List LexicalScope) (h : σ) : Prop :=
  Yields P body fun e s => R e ∧ At kinds rest scopes h s

theorem primary_path {name : String} (hname : isPath name = true) (hplain : Plain scopes) :
    Gives (At (.ident name :: kinds) rest scopes h) (primary host rounds again)
      (fun e => ∃ span, e = .global span (host.resolveGlobal name h).1) kinds rest scopes
      (host.resolveGlobal name h).2 := by
  refine At.look fun token hkind => ?_
  have hliteral : literal? token = none := by simp [literal?, hkind]
  rw [hliteral]
  dsimp only
  rw [hkind]
  refine Triple.bind (Q := fun e s => (∃ span, e = .global span (host.resolveGlobal name h).1) ∧
    At (.ident name :: kinds) rest scopes (host.resolveGlobal name h).2 s) ?_ fun e => .assume ?_
  · rintro ⟨b, scopes, h⟩ ⟨hreads, rfl, rfl⟩
    unfold resolve
    rw [Run.modifyGet_apply]
    dsimp only
    rw [hplain.lexical? hname]
    exact ⟨⟨_, rfl⟩, hreads, rfl, rfl⟩
  · intro he
    exact At.take fun _ _ s hs => ⟨he, hs⟩

theorem primary_int (value : Int64) :
    Gives (At (.int value :: kinds) rest scopes h) (primary host rounds again)
      (fun e => ∃ span, e = .int span value) kinds rest scopes h := by
  refine At.look fun token hkind => ?_
  have hliteral : literal? token = some (.int token.span value) := by simp [literal?, hkind]
  rw [hliteral]
  exact At.take fun _ _ s hs => ⟨⟨_, rfl⟩, hs⟩

theorem primary_bad (error : LexError) :
    Yields (At (.bad error :: kinds) rest scopes h) (primary host rounds again)
      fun _ _ => False := by
  refine At.look fun token hkind => ?_
  have hliteral : literal? token = none := by simp [literal?, hkind]
  rw [hliteral]
  dsimp only
  rw [hkind]
  exact fun _ _ => trivial

/-- A primary expression that is not called. -/
theorem call_primary {P : State σ → Prop} (hstop : stop ≠ .parenOpen)
    (hprimary : Gives P (primary host rounds again) R (stop :: more) rest scopes h) :
    Gives P (call host rounds again) R (stop :: more) rest scopes h := by
  refine Triple.bind hprimary fun callee => .assume fun hcallee => ?_
  refine Triple.unroll (N := fun _ _ => False) ?_ (fun _ _ _ hs => hs.elim) rounds
  refine At.check .parenOpen ?_
  rw [beq_eq_false_iff_ne.2 hstop]
  exact fun s hs => ⟨hcallee, hs⟩

/-- A primary expression that is called once. -/
theorem call_delimited {P : State σ → Prop} {R' : List Expr → Prop} (hstop : stop ≠ .parenOpen)
    (hprimary : Gives P (primary host rounds again) R (.parenOpen :: kinds) rest scopes h)
    (hargs : Yields (At (.parenOpen :: kinds) rest scopes h)
      (delimited rounds again .parenOpen .parenClose '(')
      fun found s => R' found.1 ∧ At (stop :: more) rest scopes h' s) :
    Gives P (call host rounds again)
      (fun e => ∃ span callee args, e = .call span callee args ∧ R callee ∧ R' args) (stop :: more)
      rest scopes h' := by
  refine Triple.bind hprimary fun callee => .assume fun hcallee => ?_
  refine Triple.unroll (N := fun e s => (∃ span args, e = .call span callee args ∧ R' args) ∧
    At (stop :: more) rest scopes h' s) ?_ (fun n e => .assume ?_) rounds
  · refine At.check .parenOpen ?_
    rw [beq_self_eq_true]
    refine Triple.bind hargs fun found => .assume fun hfound => ?_
    exact fun s hs => ⟨⟨_, _, rfl, hfound⟩, hs⟩
  · rintro ⟨span, args, rfl, hfound⟩
    refine Triple.unroll (N := fun _ _ => False) ?_ (fun _ _ _ hs => hs.elim) n
    refine At.check .parenOpen ?_
    rw [beq_eq_false_iff_ne.2 hstop]
    exact fun s hs => ⟨⟨span, callee, args, rfl, hcallee, hfound⟩, hs⟩

/-- A call with no operator in front or behind. -/
theorem joined_call (limit : Nat) (hminus : kind ≠ .minus) (hbang : kind ≠ .bang)
    (hstop : operator? stop = none)
    (hcall : Gives (At (kind :: kinds) rest scopes h) (call host rounds again) R (stop :: more) rest
      scopes h') :
    Gives (At (kind :: kinds) rest scopes h) (joined host rounds again limit) R (stop :: more) rest
      scopes h' := by
  have hunary : Gives (At (kind :: kinds) rest scopes h) (unary host rounds again) R (stop :: more)
      rest scopes h' := by
    refine At.look fun token hkind => ?_
    dsimp only
    split
    · rename_i hoperator
      exact absurd (hkind.symm.trans hoperator) hminus
    · rename_i hoperator
      exact absurd (hkind.symm.trans hoperator) hbang
    · exact hcall
  refine Triple.bind hunary fun left => .assume fun hleft => ?_
  refine Triple.unroll (N := fun _ _ => False) ?_ (fun _ _ _ hs => hs.elim) rounds
  refine At.look fun token hkind => ?_
  rw [hkind, hstop]
  exact fun s hs => ⟨hleft, hs⟩

/-! ## Lists -/

theorem delimited_none :
    Yields (At (.parenOpen :: .parenClose :: kinds) rest scopes h)
      (delimited rounds again .parenOpen .parenClose '(')
      fun found s => found.1 = [] ∧ At kinds rest scopes h s := by
  refine At.expect fun openToken => ?_
  refine Triple.unroll (N := fun _ _ => False) ?_ (fun _ _ _ hs => hs.elim) rounds
  refine At.look fun token hkind => ?_
  rw [if_pos hkind]
  exact At.take fun _ _ s hs => ⟨rfl, hs⟩

theorem delimited_one (hclose : kind ≠ .parenClose) (hend : kind ≠ .endOfInput)
    (harg : Gives (At (kind :: .parenClose :: kinds) rest scopes h) (again .expr) R
      (.parenClose :: kinds) rest scopes h) :
    Yields (At (.parenOpen :: kind :: .parenClose :: kinds) rest scopes h)
      (delimited rounds again .parenOpen .parenClose '(')
      fun found s => (∃ e, found.1 = [e] ∧ R e) ∧ At kinds rest scopes h s := by
  refine At.expect fun openToken => ?_
  refine Triple.unroll (N := fun items s => (∃ e, items = [e] ∧ R e) ∧
    At (.parenClose :: kinds) rest scopes h s) ?_ (fun n items => .assume ?_) rounds
  · refine At.look fun token hkind => ?_
    rw [if_neg (hkind ▸ hclose), if_neg (hkind ▸ hend)]
    refine Triple.bind harg fun item => .assume fun hitem => ?_
    refine At.check .parenClose ?_
    rw [beq_self_eq_true]
    exact fun s hs => ⟨⟨item, rfl, hitem⟩, hs⟩
  · rintro ⟨e, rfl, he⟩
    refine Triple.unroll (N := fun _ _ => False) ?_ (fun _ _ _ hs => hs.elim) n
    refine At.look fun token hkind => ?_
    rw [if_pos hkind]
    exact At.take fun _ _ s hs => ⟨⟨e, rfl, he⟩, hs⟩

/-! ## Statements -/

/-- An expression as a statement, ended by a semicolon. -/
theorem exprStmt_semicolon {P : State σ → Prop}
    (hexpr : Gives P (again .expr) R (.semicolon :: kinds) rest scopes h) :
    Yields P (exprStmt again) fun stmt s =>
      (∃ e, stmt = .expr e ∧ R e) ∧ At kinds rest scopes h s := by
  refine Triple.bind hexpr fun e => .assume fun he => ?_
  refine At.spare (by simp) (Triple.bind (Q := fun _ => At kinds rest scopes h) ?_ fun _ => ?_)
  · exact At.eat fun _ hs => hs
  · exact fun s hs => ⟨⟨e, rfl, he⟩, hs⟩

/-- An expression as the last statement of a block, which needs no semicolon. -/
theorem exprStmt_brace {P : State σ → Prop}
    (hexpr : Gives P (again .expr) R (.braceClose :: kinds) rest scopes h) :
    Yields P (exprStmt again) fun stmt s =>
      (∃ e, stmt = .expr e ∧ R e) ∧ At (.braceClose :: kinds) rest scopes h s := by
  refine Triple.bind hexpr fun e => .assume fun he => ?_
  refine At.spare (by simp)
    (Triple.bind (Q := fun _ => At (.braceClose :: kinds) rest scopes h) ?_ fun _ => ?_)
  · refine At.spare (by simp) (At.look fun token hkind => ?_)
    rw [hkind]
    exact fun _ hs => hs
  · exact fun s hs => ⟨⟨e, rfl, he⟩, hs⟩

/-- A statement that starts with an identifier. -/
theorem statement_ident {name : String} {Q : Option Stmt → State σ → Prop}
    (hstmt : Yields (At (.ident name :: kinds) rest scopes h) (exprStmt again)
      fun stmt => Q (some stmt)) :
    Yields (At (.ident name :: kinds) rest scopes h) (statement host rounds again) Q := by
  refine At.look fun token hkind => ?_
  rw [hkind]
  exact Triple.bind hstmt fun stmt => .pure

/-- A block of one statement. -/
theorem block_one {scope : ScopeKind} (hclose : kind ≠ .braceClose) (hend : kind ≠ .endOfInput)
    {R : Stmt → Prop}
    (hstmt : Yields (At (kind :: kinds) rest (.empty scope :: scopes) h)
      (statement host rounds again) fun stmt s => (∃ own, stmt = some own ∧ R own) ∧
        At (.braceClose :: more) rest (.empty scope :: scopes) h' s) :
    Yields (At (.braceOpen :: kind :: kinds) rest scopes h) (block host rounds again scope)
      fun body s => (∃ span own, body = .mk span [own] ∧ R own) ∧ At more rest scopes h' s := by
  refine At.expect fun openToken => ?_
  refine Triple.bind (Q := fun _ => At (kind :: kinds) rest (.empty scope :: scopes) h)
    ?_ fun _ => ?_
  · rintro ⟨b, scopes, h⟩ ⟨hreads, rfl, rfl⟩
    exact ⟨hreads, rfl, rfl⟩
  refine Triple.ensuring ?_
  -- one round for the statement, and one that finds the closing brace
  refine Triple.unroll (N := fun stmts s => (∃ own, stmts = [own] ∧ R own) ∧
    At (.braceClose :: more) rest (.empty scope :: scopes) h' s)
    ?_ (fun n stmts => .assume ?_) rounds
  · refine At.look fun token hkind => ?_
    split
    · rename_i hbrace
      exact absurd (hkind.symm.trans hbrace) hclose
    · rename_i hinput
      exact absurd (hkind.symm.trans hinput) hend
    · refine Triple.bind hstmt fun stmt => .assume ?_
      rintro ⟨own, rfl, hown⟩
      exact fun s hs => ⟨⟨own, rfl, hown⟩, hs⟩
  · rintro ⟨own, rfl, hown⟩
    refine Triple.unroll (N := fun _ _ => False) ?_ (fun _ _ _ hs => hs.elim) n
    refine At.look fun token hkind => ?_
    rw [hkind]
    refine At.take fun _ _ s hs => ?_
    exact ⟨⟨_, own, rfl, hown⟩, hs.reads, by rw [hs.scopes]; rfl, hs.host⟩

/-! ## What deferral splices in -/

variable {bound : Nat}

/-- The argument of a marker, if it fits an integer literal. -/
theorem run_number (depth : Nat) (hstop : stop ≠ .parenOpen) (hend : operator? stop = none) :
    Gives (At (Scan.numberKind depth :: stop :: more) rest scopes h) (run host bound .expr)
      (fun e => depth ≤ Scan.maxValue ∧ ∃ span, e = .int span (Int64.ofNat depth)) (stop :: more)
      rest scopes h := by
  cases bound with
  | zero => exact .cutOff
  | succ bound =>
      rw [run_succ]
      by_cases hdepth : depth ≤ Scan.maxValue
      · rw [Scan.numberKind_of_le hdepth]
        refine joined_call 6 (by simp) (by simp) hend (call_primary hstop ?_)
        exact (primary_int _).weaken (fun _ => id) (fun _ _ hs => ⟨⟨hdepth, hs.1⟩, hs.2⟩)
          (fun _ _ => id)
      · have hkind : Scan.numberKind depth = .bad .integerOutOfRange := by
          rw [Scan.numberKind, Scan.fits, if_neg hdepth]
        rw [hkind]
        refine joined_call 6 (by simp) (by simp) hend (call_primary hstop ?_)
        exact (primary_bad _).weaken (fun _ => id) (fun _ _ hs => hs.elim) (fun _ _ => id)

/-- A call of a path. -/
theorem run_call {name : String} {R : List Expr → Prop} (hplain : Plain scopes)
    (hname : isPath name = true) (hstop : stop ≠ .parenOpen) (hend : operator? stop = none)
    (hargs : ∀ n, Yields (At (.parenOpen :: kinds) rest scopes (host.resolveGlobal name h).2)
      (delimited n (run host n) .parenOpen .parenClose '(') fun found s =>
        R found.1 ∧ At (stop :: more) rest scopes (host.resolveGlobal name h).2 s) :
    Gives (At (.ident name :: .parenOpen :: kinds) rest scopes h) (run host bound .expr)
      (fun e => ∃ span span' args,
        e = .call span (.global span' (host.resolveGlobal name h).1) args ∧ R args)
      (stop :: more) rest scopes (host.resolveGlobal name h).2 := by
  cases bound with
  | zero => exact .cutOff
  | succ bound =>
      rw [run_succ]
      refine joined_call 6 (by simp) (by simp) hend ?_
      refine (call_delimited hstop (primary_path hname hplain) (hargs bound)).weaken (fun _ => id)
        ?_ (fun _ _ => id)
      rintro e s ⟨⟨span, callee, args, rfl, ⟨span', rfl⟩, hargs⟩, hs⟩
      exact ⟨⟨span, span', args, rfl, hargs⟩, hs⟩

/-- The dispatch call is parsed to a call of the cell that its name means there. -/
theorem statement_dispatch (hplain : Plain scopes) :
    Yields (At dispatchKinds rest scopes h) (statement host bound (run host bound)) fun stmt s =>
      (∃ span span', stmt = some
        (.expr (.call span (.global span' (host.resolveGlobal dispatchName h).1) []))) ∧
      At [] rest scopes (host.resolveGlobal dispatchName h).2 s := by
  refine statement_ident ?_
  have hcall : Gives (At dispatchKinds rest scopes h) (run host bound .expr)
      (fun e => ∃ span span' args,
        e = .call span (.global span' (host.resolveGlobal dispatchName h).1) args ∧ args = [])
      [.semicolon] rest scopes (host.resolveGlobal dispatchName h).2 :=
    run_call hplain rfl (by simp) rfl fun n => delimited_none
  refine (exprStmt_semicolon hcall).weaken (fun _ => id) ?_ (fun _ _ => id)
  rintro stmt s ⟨⟨e, rfl, span, span', args, rfl, rfl⟩, hs⟩
  exact ⟨⟨span, span', rfl⟩, hs⟩

/-- A call of a cell with a depth as its argument. -/
def Names (cell : CellRef) (depth : Nat) (e : Expr) : Prop :=
  depth ≤ Scan.maxValue ∧ ∃ span span₁ span₂,
    e = .call span (.global span₁ cell) [.int span₂ (Int64.ofNat depth)]

theorem run_clear (hplain : Plain scopes) (depth : Nat) :
    Gives (At (clearKinds depth).tail.tail rest scopes h) (run host bound .expr)
      (Names (host.resolveGlobal clearName h).1 depth) [.braceClose] rest scopes
      (host.resolveGlobal clearName h).2 := by
  have hnumber : Scan.numberKind depth ≠ .parenClose ∧ Scan.numberKind depth ≠ .endOfInput := by
    unfold Scan.numberKind
    split <;> simp
  have hcall : Gives (At (clearKinds depth).tail.tail rest scopes h) (run host bound .expr)
      (fun e => ∃ span span₁ args,
        e = .call span (.global span₁ (host.resolveGlobal clearName h).1) args ∧
          ∃ arg, args = [arg] ∧ depth ≤ Scan.maxValue ∧
            ∃ span₂, arg = .int span₂ (Int64.ofNat depth))
      [.braceClose] rest scopes (host.resolveGlobal clearName h).2 :=
    run_call hplain rfl (by simp) rfl fun n =>
      delimited_one hnumber.1 hnumber.2 (run_number depth (by simp) rfl)
  refine hcall.weaken (fun _ => id) ?_ (fun _ _ => id)
  rintro e s ⟨⟨span, span₁, args, rfl, arg, rfl, hdepth, span₂, rfl⟩, hs⟩
  exact ⟨⟨hdepth, span, span₁, span₂, rfl⟩, hs⟩

/-- The block of a marker calls the cell that the name of the clearing sub means there. -/
theorem block_clear (hplain : Plain scopes) (depth : Nat) :
    Yields (At (clearKinds depth).tail rest scopes h) (run host bound (.block .beginBlock))
      fun body s => (∃ span e, body = .mk span [.expr e] ∧
        Names (host.resolveGlobal clearName h).1 depth e) ∧
        At [] rest scopes (host.resolveGlobal clearName h).2 s := by
  cases bound with
  | zero => exact .cutOff
  | succ bound =>
      rw [run_succ]
      have hplain : Plain (.empty .beginBlock :: scopes) :=
        hplain.push (LexicalScope.Plain.declaring .beginBlock (List.forall_mem_nil _))
      have hstmt : Yields (At (clearKinds depth).tail.tail rest (.empty .beginBlock :: scopes) h)
          (statement host bound (run host bound)) fun stmt s =>
            (∃ own, stmt = some own ∧ ∃ e, own = .expr e ∧
              Names (host.resolveGlobal clearName h).1 depth e) ∧
            At [.braceClose] rest (.empty .beginBlock :: scopes)
              (host.resolveGlobal clearName h).2 s :=
        statement_ident ((exprStmt_brace (run_clear hplain depth)).weaken (fun _ => id)
          (fun stmt s hs => ⟨⟨stmt, rfl, hs.1⟩, hs.2⟩) (fun _ _ => id))
      refine (block_one (by simp) (by simp) hstmt).weaken (fun _ => id) ?_ (fun _ _ => id)
      rintro body s ⟨⟨span, own, rfl, e, rfl, he⟩, hs⟩
      exact ⟨⟨span, e, rfl, he⟩, hs⟩

/-- A marker is read whole, and then its block runs. -/
theorem beginStmt_clear {Q : Buffer → σ → Prop} (hplain : Plain scopes) (depth : Nat)
    (hrun : ∀ buffer span e span', buffer.after = rest →
      Names (host.resolveGlobal clearName h).1 depth e →
      Yields (· = (buffer, (host.resolveGlobal clearName h).2))
        (host.runBegin bound (.mk span [.expr e]) span') fun _ p => Q p.1 p.2) :
    Yields (At (clearKinds depth) rest scopes h) (beginStmt host bound (run host bound))
      fun _ s => s.scopes = scopes ∧ Q s.buffer s.host := by
  refine At.take fun keyword _ => Triple.bind (block_clear hplain depth) fun body => .assume ?_
  rintro ⟨span, e, rfl, he⟩ ⟨buffer, scopes, h⟩ ⟨hreads, rfl, rfl⟩
  have hbegun := hrun buffer span e (keyword.span.merge (Block.mk span [.expr e]).span)
    hreads.eq_of_nil he _ rfl
  unfold runBegin
  dsimp only
  cases hbegin : host.runBegin bound (.mk span [.expr e])
      (keyword.span.merge (Block.mk span [.expr e]).span) (buffer, _) with
  | value a p => exact ⟨rfl, by simpa [hbegin] using hbegun⟩
  | error e p => trivial
  | cutOff => trivial

end Parser

end TwoPhase
