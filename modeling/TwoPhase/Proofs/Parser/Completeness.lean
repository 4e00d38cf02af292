import TwoPhase.Proofs.Parser.Passing

/-!
# What is written is parsed

Tokens that write an expression are parsed to it, if the token behind them does not go on.  The
induction is on how the expression is written.

Calls and operators group to the left, while the parser reads them in a loop.  So what is shown of
them is not that their parse ends, but that it comes to a round of the loop in which the expression
is what was read so far (`Calls`, `Joins`).  There it may end or go on.  Every round takes a token,
so the tokens are a bound on the rounds.
-/

namespace TwoPhase.Parser

open Buffer (passes_append)

variable {σ : Type} {host : Host σ} {n k limit : Nat} {s t : State σ} {c : Buffer}
  {kinds more : List TokenKind} {term left right : Term} {terms : List Term}

/-! ## Loops -/

theorem iterate_done {α β : Type} {step : α → Parse σ (Run.Step α β)} {a : α} {b : β}
    (hk : 0 < k) (h : step a s = .value (.done b) t) : Run.iterate k step a s = .value b t := by
  obtain ⟨k, rfl⟩ := Nat.exists_eq_add_one.2 hk
  rw [Run.iterate, h]

theorem iterate_next {α β : Type} {step : α → Parse σ (Run.Step α β)} {a b : α}
    (h : step a s = .value (.next b) t) :
    Run.iterate (k + 1) step a s = Run.iterate k step b t := by
  rw [Run.iterate, h]

/-- What a parse does once an expression has been read that stands for a term, and a buffer is
ahead. -/
def Comes (outcome : Run.Outcome (State σ) CompileError Expr)
    (next : Expr → State σ → Run.Outcome (State σ) CompileError Expr) (term : Term) (c : Buffer) :
    Prop :=
  ∃ e t, outcome = next e t ∧ e.term? = some term ∧ t.buffer.lookAhead = c.lookAhead

/-! ## What comes of written expressions -/

/-- How loosely the operators of a precedence may bind at most. -/
def limitOf : Precedence → Nat
  | .or => 6
  | .and => 5
  | .equality => 4
  | .compare => 3
  | .sum => 2
  | .product => 1
  | .unary | .call | .primary => 0

/-- An operator behind an operand whose operators bind less loosely than a limit does not belong
into the operand. -/
def Delimits (limit : Nat) (kind : TokenKind) : Prop :=
  kind ≠ .parenOpen ∧ ∀ op, operator? kind = some op → limit ≤ looseness op + 1

variable (host)

/-- Tokens that write a term are parsed as a primary expression. -/
def Stands (kinds : List TokenKind) (term : Term) : Prop :=
  ∀ n, kinds.length ≤ n → ∀ s c, s.buffer.Passes kinds c →
    Comes (primary host n (run host n) s) .value term c

/-- Tokens that write a term are read in some rounds of the loop over calls. -/
def Calls (kinds : List TokenKind) (term : Term) : Prop :=
  ∀ n, kinds.length ≤ n → ∀ s c, s.buffer.Passes kinds c → ∃ k, n < k + kinds.length ∧
    Comes (call host n (run host n) s) (Run.iterate k (callRound n (run host n))) term c

/-- Tokens that write a term are parsed with prefix operators. -/
def Prefixes (kinds : List TokenKind) (term : Term) : Prop :=
  ∀ n, kinds.length ≤ n → ∀ s c, s.buffer.Passes kinds c → c.next.1.kind ≠ .parenOpen →
    Comes (unary host n (run host n) s) .value term c

/-- Tokens that write a term are read in some rounds of the loop over operators, wherever operators
up to a limit are. -/
def Joins (least : Nat) (kinds : List TokenKind) (term : Term) : Prop :=
  ∀ n, kinds.length ≤ n → ∀ limit, least ≤ limit → ∀ s c, s.buffer.Passes kinds c →
    Delimits least c.next.1.kind → ∃ k, n < k + kinds.length ∧
      Comes (joined host n (run host n) limit s) (Run.iterate k (joinRound (run host n) limit))
        term c

/-- Tokens that write a term are read in some rounds of the loop over items. -/
def Lists (kinds : List TokenKind) (terms : List Term) : Prop :=
  ∀ n, kinds.length < n → ∀ k, kinds.length < k → ∀ closing delimiter span read s c,
    Precedence.or.opens closing = false → ¬closing.Continues → closing ≠ .comma →
      s.buffer.Passes (kinds ++ [closing]) c → ∃ items span' t,
        Run.iterate k (itemRound (run host n) closing delimiter span) read s
          = .value (read.reverse ++ items, span') t ∧
        terms? items = some terms ∧ t.buffer.lookAhead = c.lookAhead

/-- What the parser makes of tokens that write a term of some precedence. -/
def Meets : Precedence → List TokenKind → Term → Prop
  | .primary => Stands host
  | .call => Calls host
  | .unary => Prefixes host
  | precedence => Joins host (limitOf precedence)

variable {host}

/-! ## Operators -/

theorem limitOf_tighter (op : BinaryOp) : limitOf op.precedence.tighter = looseness op := by
  cases op <;> rfl

theorem joinRound_stop {again : Again σ} (left : Expr)
    (h : ∀ op, operator? s.buffer.next.1.kind = some op → limit ≤ looseness op) :
    joinRound again limit left s = .value (.done left) s.lookAhead := by
  simp only [joinRound, Run.bind_apply, peek_apply]
  cases hop : operator? s.buffer.next.1.kind with
  | none => rfl
  | some op =>
      dsimp only
      rw [if_pos (h op hop)]
      rfl

/-- Where no operator that follows belongs into the operand, the loop ends. -/
theorem Joins.value {least : Nat} (h : Joins host least kinds term) (hn : kinds.length ≤ n)
    (hlimit : least ≤ limit) (hpasses : s.buffer.Passes kinds c)
    (hparen : c.next.1.kind ≠ .parenOpen)
    (hstop : ∀ op, operator? c.next.1.kind = some op → limit ≤ looseness op) :
    Comes (joined host n (run host n) limit s) .value term c := by
  obtain ⟨k, hk, e, t, hrun, hterm, ht⟩ := h n hn limit hlimit s c hpasses
    ⟨hparen, fun op hop => Nat.le_succ_of_le (hlimit.trans (hstop op hop))⟩
  refine ⟨e, t.lookAhead, ?_, hterm, ht⟩
  rw [hrun]
  refine iterate_done (by omega) (joinRound_stop e ?_)
  rw [Buffer.next_congr ht]
  exact hstop

theorem Joins.mono {least more : Nat} (h : Joins host least kinds term) (hle : least ≤ more) :
    Joins host more kinds term :=
  fun n hn limit hlimit s c hpasses hdelimits => h n hn limit (hle.trans hlimit) s c hpasses
    ⟨hdelimits.1, fun op hop => hle.trans (hdelimits.2 op hop)⟩

theorem Prefixes.joins (h : Prefixes host kinds term) (hne : kinds ≠ []) :
    Joins host 0 kinds term := by
  intro n hn limit _ s c hpasses hdelimits
  obtain ⟨e, t, hrun, hterm, ht⟩ := h n hn s c hpasses hdelimits.1
  have hpos := List.length_pos_iff.2 hne
  refine ⟨n, by omega, e, t, ?_, hterm, ht⟩
  rw [joined_eq, Run.bind_apply, hrun]

/-- An operator is read in one more round, and its right operand in a loop of its own. -/
theorem Joins.binary (op : BinaryOp) (hleft : Joins host (looseness op + 1) kinds left)
    (hright : Joins host (looseness op) more right) :
    Joins host (looseness op + 1) (kinds ++ op.kind :: more) (.binary op left right) := by
  intro n hn limit hlimit s c hpasses hdelimits
  obtain ⟨d, hkinds, hkind, hmore⟩ := passes_append.1 hpasses
  rw [List.length_append, List.length_cons] at hn ⊢
  have hoperator : operator? d.next.1.kind = some op := by rw [hkind, operator?_kind]
  have hparen : d.next.1.kind ≠ .parenOpen := by
    rw [hkind]
    cases op <;> simp [BinaryOp.kind]
  obtain ⟨k, hk, e, t, hrun, hterm, ht⟩ := hleft n (by omega) limit hlimit s d hkinds
    ⟨hparen, fun op' hop' => by rw [Option.some.inj (hoperator.symm.trans hop')]⟩
  have hnext : t.buffer.next = d.next := Buffer.next_congr ht
  obtain ⟨n, rfl⟩ : ∃ m, n = m + 1 := ⟨n - 1, by omega⟩
  obtain ⟨k, rfl⟩ : ∃ m, k = m + 1 := ⟨k - 1, by omega⟩
  obtain ⟨e', t', hrun', hterm', ht'⟩ :=
    hright.value (n := n) (s := t.next) (by omega) (Nat.le_refl (looseness op))
      (by rwa [State.buffer_next, hnext]) hdelimits.1
      fun op' hop' => Nat.le_of_succ_le_succ (hdelimits.2 op' hop')
  have hround : joinRound (run host (n + 1)) limit e t
      = .value (.next (.binary (e.span.merge e'.span) op e e')) t' := by
    simp only [joinRound, Run.bind_apply, peek_apply, hnext, hoperator]
    rw [if_neg (by omega)]
    simp only [Run.bind_apply, advance_apply, State.next_lookAhead, run_succ, parse, hrun',
      Run.pure_apply]
  refine ⟨k, by omega, _, t', hrun.trans (iterate_next hround), ?_, ht'⟩
  simp only [Expr.term?, hterm, hterm', Option.bind_some, Option.map_some]

/-! ## Prefix operators and calls -/

theorem Prefixes.unary (op : UnaryOp) (h : Prefixes host kinds term) :
    Prefixes host (op.kind :: kinds) (.unary op term) := by
  rintro n hn s c ⟨hkind, hpasses⟩ hparen
  rw [List.length_cons] at hn
  obtain ⟨n, rfl⟩ : ∃ m, n = m + 1 := ⟨n - 1, by omega⟩
  obtain ⟨e, t, hrun, hterm, ht⟩ := h n (by omega) s.next c hpasses hparen
  refine ⟨.unary (s.buffer.next.1.span.merge e.span) op e, t, ?_, ?_, ht⟩
  · unfold Parser.unary
    cases op <;>
      simp only [Run.bind_apply, peek_apply, hkind, UnaryOp.kind, advance_apply,
        State.next_lookAhead, run_succ, parse, hrun, Run.pure_apply]
  · simp only [Expr.term?, hterm, Option.map_some]

/-- Without a prefix operator in front, operands are calls. -/
theorem Calls.prefixes (h : Calls host kinds term)
    (hopens : ∃ kind more, kinds = kind :: more ∧ Precedence.call.opens kind = true) :
    Prefixes host kinds term := by
  obtain ⟨kind, more, rfl, hopens⟩ := hopens
  intro n hn s c hpasses hparen
  obtain ⟨k, hk, e, t, hrun, hterm, ht⟩ := h n hn s.lookAhead c
    (Buffer.Passes.of_lookAhead (c := s.buffer) rfl hpasses)
  refine ⟨e, t.lookAhead, ?_, hterm, ht⟩
  have hcall : unary host n (run host n) s = call host n (run host n) s.lookAhead := by
    unfold Parser.unary
    simp only [Run.bind_apply, peek_apply, hpasses.1]
    cases kind with
    | minus | bang => cases hopens
    | _ => rfl
  have hround : callRound n (run host n) e t = .value (.done e) t.lookAhead := by
    simp only [callRound, Run.bind_apply, check_apply, Buffer.next_congr ht]
    rw [beq_eq_false_iff_ne.2 hparen]
    rfl
  rw [hcall, hrun]
  exact iterate_done (by omega) hround

theorem Stands.calls (h : Stands host kinds term) (hne : kinds ≠ []) : Calls host kinds term := by
  intro n hn s c hpasses
  obtain ⟨e, t, hrun, hterm, ht⟩ := h n hn s c hpasses
  have hpos := List.length_pos_iff.2 hne
  refine ⟨n, by omega, e, t, ?_, hterm, ht⟩
  rw [call_eq, Run.bind_apply, hrun]

/-- Items between delimiters. -/
theorem Lists.delimited (h : Lists host kinds terms) (hn : kinds.length < n)
    {opening closing : TokenKind} (delimiter : Char) (hopens : Precedence.or.opens closing = false)
    (hcontinues : ¬closing.Continues) (hcomma : closing ≠ .comma)
    (hpasses : s.buffer.Passes (opening :: (kinds ++ [closing])) c) : ∃ items span t,
      delimited n (run host n) opening closing delimiter s = .value (items, span) t ∧
      terms? items = some terms ∧ t.buffer.lookAhead = c.lookAhead := by
  obtain ⟨hkind, hpasses⟩ := hpasses
  obtain ⟨items, span, t, hrun, hterms, ht⟩ := h n hn n hn closing delimiter
    s.buffer.next.1.span [] s.next c hopens hcontinues hcomma hpasses
  refine ⟨items, span, t, ?_, hterms, ht⟩
  rw [delimited_eq, Run.bind_apply, expect_apply hkind]
  exact hrun

theorem Calls.call (h : Calls host kinds term) (hargs : Lists host more terms) :
    Calls host (kinds ++ .parenOpen :: (more ++ [.parenClose])) (.call term terms) := by
  intro n hn s c hpasses
  obtain ⟨d, hkinds, hmore⟩ := passes_append.1 hpasses
  simp only [List.length_append, List.length_cons, List.length_nil] at hn ⊢
  obtain ⟨k, hk, e, t, hrun, hterm, ht⟩ := h n (by omega) s d hkinds
  obtain ⟨k, rfl⟩ : ∃ m, k = m + 1 := ⟨k - 1, by omega⟩
  obtain ⟨items, span, t', hrun', hterms, ht'⟩ := hargs.delimited (n := n) (s := t.lookAhead)
    (by omega) '(' rfl (not_continues (by simp) rfl) (by simp)
    (.of_lookAhead ht hmore)
  have hround : callRound n (run host n) e t
      = .value (.next (.call (e.span.merge span) e items)) t' := by
    simp only [callRound, Run.bind_apply, check_apply, Buffer.next_congr ht, hmore.1,
      beq_self_eq_true, if_true, hrun', Run.pure_apply]
  refine ⟨k, by omega, _, t', hrun.trans (iterate_next hround), ?_, ht'⟩
  simp only [Expr.term?, hterm, hterms, Option.bind_some, Option.map_some]

/-! ## Primary expressions -/

/-- An expression of its own, where nothing that follows goes on. -/
theorem Joins.expr (h : Joins host 6 kinds term) (hn : kinds.length < n)
    (hpasses : s.buffer.Passes kinds c) (hstop : ¬c.next.1.kind.Continues) :
    Comes (run host n .expr s) .value term c := by
  obtain ⟨n, rfl⟩ : ∃ m, n = m + 1 := ⟨n - 1, by omega⟩
  rw [run_succ]
  exact h.value (by omega) (Nat.le_refl _) hpasses (fun heq => hstop (.inl heq))
    fun op hop => absurd (.inr ⟨op, operator?_eq_some hop⟩) hstop

theorem Stands.literal {kind : TokenKind} (h : ∀ token, token.kind = kind →
    ∃ e, literal? token = some e ∧ e.term? = some term) : Stands host [kind] term := by
  rintro n _ s c ⟨hkind, hc⟩
  obtain ⟨e, hliteral, hterm⟩ := h s.buffer.next.1 hkind
  refine ⟨e, s.next, ?_, hterm, hc⟩
  simp only [primary, Run.bind_apply, peek_apply, hliteral, advance_apply, State.next_lookAhead,
    Run.pure_apply]

theorem Stands.name (hnames : host.Names) (name : String) :
    Stands host [.ident name] (.name name) := by
  rintro n _ s c ⟨hkind, hc⟩
  obtain ⟨e, h, hresolve, hterm⟩ :=
    resolve_apply hnames name s.buffer.next.1.span s.lookAhead
  have hliteral : literal? s.buffer.next.1 = none := by simp only [literal?, hkind]
  have hnext : ({ s.lookAhead with host := h } : State σ).next = { s.next with host := h } := by
    simp only [State.next, State.lookAhead, Buffer.next_lookAhead]
  refine ⟨e, { s.next with host := h }, ?_, hterm, hc⟩
  simp only [primary, Run.bind_apply, peek_apply, hliteral, hkind, hresolve, advance_apply,
    hnext, Run.pure_apply]

theorem Stands.parens (h : Joins host 6 kinds term) :
    Stands host (.parenOpen :: (kinds ++ [.parenClose])) term := by
  rintro n hn s c ⟨hkind, hpasses⟩
  obtain ⟨d, hkinds, hclose⟩ := passes_append.1 hpasses
  simp only [List.length_append, List.length_cons, List.length_nil] at hn
  obtain ⟨e, t, hrun, hterm, ht⟩ := h.expr (n := n) (s := s.next) (by omega) hkinds
    (by rw [hclose.1]; exact not_continues (by simp) rfl)
  have hexpect : (expect .parenClose : Parse σ Token) t = .value t.buffer.next.1 t.next :=
    expect_apply (by rw [Buffer.next_congr ht, hclose.1])
  have hliteral : literal? s.buffer.next.1 = none := by simp only [literal?, hkind]
  refine ⟨e.withSpan (s.buffer.next.1.span.merge t.buffer.next.1.span), t.next, ?_, ?_, ?_⟩
  · simp only [primary, Run.bind_apply, peek_apply, hliteral, hkind, advance_apply,
      State.next_lookAhead, hrun, hexpect, Run.pure_apply]
  · rw [Expr.term?_withSpan, hterm]
  · rw [State.buffer_next, Buffer.next_congr ht]
    exact hclose.2

theorem Stands.list (h : Lists host kinds terms) :
    Stands host (.bracketOpen :: (kinds ++ [.bracketClose])) (.list terms) := by
  rintro n hn s c hpasses
  have hkind := hpasses.1
  simp only [List.length_append, List.length_cons, List.length_nil] at hn
  obtain ⟨items, span, t, hrun, hterms, ht⟩ := h.delimited (n := n) (s := s.lookAhead) (by omega)
    '[' rfl (not_continues (by simp) rfl) (by simp)
    (Buffer.Passes.of_lookAhead (c := s.buffer) rfl hpasses)
  have hliteral : literal? s.buffer.next.1 = none := by simp only [literal?, hkind]
  refine ⟨.list (s.buffer.next.1.span.merge span) items, t, ?_, ?_, ht⟩
  · simp only [primary, Run.bind_apply, peek_apply, hliteral, hkind, hrun, Run.pure_apply]
  · simp only [Expr.term?, hterms, Option.map_some]

/-! ## Items -/

theorem Lists.nil : Lists host [] [] := by
  rintro n _ k hk closing delimiter span read s c _ _ _ ⟨hkind, hc⟩
  refine ⟨[], s.buffer.next.1.span, s.next, ?_, rfl, hc⟩
  rw [List.append_nil]
  refine iterate_done hk ?_
  simp only [itemRound, Run.bind_apply, peek_apply, hkind, if_true, advance_apply,
    State.next_lookAhead, Run.pure_apply]

/-- A round reads an item and the comma behind it, unless the closing delimiter is next. -/
theorem itemRound_item {closing : TokenKind}
    (hwritten : Written .or kinds term) (hjoins : Joins host 6 kinds term) (hn : kinds.length < n)
    (hopens : Precedence.or.opens closing = false) (hpasses : s.buffer.Passes kinds c)
    (hstop : ¬c.next.1.kind.Continues) (delimiter : Char) (span : Span) (read : List Expr) :
    ∃ e t, e.term? = some term ∧ t.buffer.lookAhead = c.lookAhead ∧
      itemRound (run host n) closing delimiter span read s = (do
        if !(← check closing) then let _ ← expect .comma
        return .next (e :: read) : Parse σ (Run.Step (List Expr) (List Expr × Span))) t := by
  obtain ⟨kind, more, rfl, hkind⟩ := hwritten.opens
  obtain ⟨e, t, hrun, hterm, ht⟩ := hjoins.expr (s := s.lookAhead) hn
    (Buffer.Passes.of_lookAhead (c := s.buffer) rfl hpasses) hstop
  refine ⟨e, t, hterm, ht, ?_⟩
  have hclosing : kind ≠ closing := by
    rintro rfl
    rw [hkind] at hopens
    cases hopens
  have hend : kind ≠ .endOfInput := by
    rintro rfl
    cases hkind
  simp only [itemRound, Run.bind_apply, peek_apply, hpasses.1]
  rw [if_neg hclosing, if_neg hend]
  simp only [Run.bind_apply, hrun]

/-- An item and those behind it. -/
theorem Lists.round {closing : TokenKind} {delimiter : Char} {span : Span} {read : List Expr}
    {e : Expr} (h : Lists host more terms) (hn : more.length < n) (hk : more.length < k)
    (hopens : Precedence.or.opens closing = false) (hcontinues : ¬closing.Continues)
    (hcomma : closing ≠ .comma) (hpasses : t.buffer.Passes (more ++ [closing]) c)
    (hterm : e.term? = some term)
    (hround : itemRound (run host n) closing delimiter span read s = .value (.next (e :: read)) t) :
    ∃ items span' t', Run.iterate (k + 1) (itemRound (run host n) closing delimiter span) read s
        = .value (read.reverse ++ items, span') t' ∧
      terms? items = some (term :: terms) ∧ t'.buffer.lookAhead = c.lookAhead := by
  obtain ⟨items, span', t', hrun, hterms, ht'⟩ :=
    h n hn k hk closing delimiter span (e :: read) t c hopens hcontinues hcomma hpasses
  refine ⟨e :: items, span', t', ?_, ?_, ht'⟩
  · rw [iterate_next hround, hrun, List.reverse_cons, List.append_assoc, List.singleton_append]
  · simp only [terms?, hterm, hterms, Option.bind_some, Option.map_some]

theorem Lists.last (hwritten : Written .or kinds term) (h : Joins host 6 kinds term) :
    Lists host kinds [term] := by
  intro n hn k hk closing delimiter span read s c hopens hcontinues hcomma hpasses
  obtain ⟨d, hkinds, hclose⟩ := passes_append.1 hpasses
  obtain ⟨e, t, hterm, ht, hround⟩ := itemRound_item hwritten h hn hopens hkinds
    (by rwa [hclose.1]) delimiter span read
  have hclosed : t.buffer.next.1.kind = closing := by rw [Buffer.next_congr ht, hclose.1]
  simp only [Run.bind_apply, check_apply, hclosed, beq_self_eq_true] at hround
  obtain ⟨k, rfl⟩ : ∃ m, k = m + 1 := ⟨k - 1, by omega⟩
  obtain ⟨_, _, hne, _⟩ := hwritten.opens
  have hpos := congrArg List.length hne
  rw [List.length_cons] at hpos
  exact Lists.nil.round (k := k) (t := t.lookAhead) (by rw [List.length_nil]; omega)
    (by rw [List.length_nil]; omega) hopens hcontinues hcomma (.of_lookAhead ht hclose) hterm hround

theorem Lists.cons (hwritten : Written .or kinds term) (h : Joins host 6 kinds term)
    (hmore : Lists host more terms) : Lists host (kinds ++ .comma :: more) (term :: terms) := by
  intro n hn k hk closing delimiter span read s c hopens hcontinues hcomma hpasses
  rw [List.append_assoc] at hpasses
  obtain ⟨d, hkinds, hkind, hbehind⟩ := passes_append.1 hpasses
  rw [List.length_append, List.length_cons] at hn hk
  obtain ⟨e, t, hterm, ht, hround⟩ := itemRound_item (n := n) hwritten h (by omega) hopens hkinds
    (by rw [hkind]; exact not_continues (by simp) rfl) delimiter span read
  have hnext : t.buffer.next.1.kind = .comma := by rw [Buffer.next_congr ht, hkind]
  have hexpect : (expect .comma : Parse σ Token) t.lookAhead = .value t.buffer.next.1 t.next := by
    rw [expect_apply (by rwa [State.buffer_lookAhead, Buffer.next_lookAhead]),
      State.buffer_lookAhead, Buffer.next_lookAhead, State.next_lookAhead]
  simp only [Run.bind_apply, check_apply, hnext, beq_eq_false_iff_ne.2 hcomma.symm, Bool.not_false,
    if_true, hexpect] at hround
  obtain ⟨k, rfl⟩ : ∃ m, k = m + 1 := ⟨k - 1, by omega⟩
  exact hmore.round (k := k) (t := t.next) (by omega) (by omega) hopens hcontinues hcomma
    (by rwa [State.buffer_next, Buffer.next_congr ht]) hterm hround

/-! ## The induction -/

theorem Meets.joins {precedence : Precedence} (h : Meets host precedence kinds term)
    (hne : kinds ≠ []) (hprimary : precedence ≠ .primary) (hcall : precedence ≠ .call) :
    Joins host (limitOf precedence) kinds term := by
  cases precedence with
  | primary => exact absurd rfl hprimary
  | call => exact absurd rfl hcall
  | unary => exact Prefixes.joins h hne
  | _ => exact h

/-- What is parsed where operators bind tighter is parsed where they may bind looser. -/
theorem Meets.looser {precedence : Precedence} (h : Meets host precedence.tighter kinds term)
    (hwritten : Written precedence.tighter kinds term) : Meets host precedence kinds term := by
  obtain ⟨kind, more, hkinds, hopens⟩ := hwritten.opens
  have hne : kinds ≠ [] := by simp [hkinds]
  cases precedence with
  | primary => exact h
  | call => exact Stands.calls h hne
  | unary => exact Calls.prefixes h ⟨kind, more, hkinds, hopens⟩
  | _ =>
    exact (h.joins hne (by simp [Precedence.tighter]) (by simp [Precedence.tighter])).mono
      (by decide)

theorem Meets.binary (op : BinaryOp) (hleft : Meets host op.precedence kinds left)
    (hright : Meets host op.precedence.tighter more right) (hne : more ≠ []) :
    Meets host op.precedence (kinds ++ op.kind :: more) (.binary op left right) := by
  have hleft : Joins host (looseness op + 1) kinds left := by cases op <;> exact hleft
  have hright : Joins host (looseness op) more right := by
    rw [← limitOf_tighter]
    refine hright.joins hne ?_ ?_ <;> cases op <;> simp [BinaryOp.precedence, Precedence.tighter]
  have hjoined := hleft.binary op hright
  cases op <;> exact hjoined

mutual

theorem Written.meets (hnames : host.Names) {precedence : Precedence} {kinds : List TokenKind}
    {term : Term} : Written precedence kinds term → Meets host precedence kinds term
  | .kwNil => Stands.literal fun token hkind => ⟨.nil token.span, by rw [literal?, hkind], rfl⟩
  | .kwTrue =>
    Stands.literal fun token hkind => ⟨.bool token.span true, by rw [literal?, hkind], rfl⟩
  | .kwFalse =>
    Stands.literal fun token hkind => ⟨.bool token.span false, by rw [literal?, hkind], rfl⟩
  | @Written.int value _ =>
    Stands.literal fun token hkind => ⟨.int token.span value, by rw [literal?, hkind], rfl⟩
  | .str value =>
    Stands.literal fun token hkind => ⟨.str token.span value, by rw [literal?, hkind], rfl⟩
  | .name name => Stands.name hnames name
  | .list h => Stands.list (WrittenAll.lists hnames h)
  | .parens h => Stands.parens (Written.meets hnames h)
  | .call hcallee hargs => Calls.call (Written.meets hnames hcallee) (WrittenAll.lists hnames hargs)
  | .unary op h => Prefixes.unary op (Written.meets hnames h)
  | .binary op hleft hright => by
      obtain ⟨_, _, hne, _⟩ := hright.opens
      exact Meets.binary op (Written.meets hnames hleft) (Written.meets hnames hright)
        (by simp [hne])
  | .looser h => Meets.looser (Written.meets hnames h) h

theorem WrittenAll.lists (hnames : host.Names) {kinds : List TokenKind} {terms : List Term} :
    WrittenAll kinds terms → Lists host kinds terms
  | .nil => Lists.nil
  | .last h => Lists.last h (Written.meets hnames h)
  | .cons h hmore => Lists.cons h (Written.meets hnames h) (WrittenAll.lists hnames hmore)

end

end TwoPhase.Parser
