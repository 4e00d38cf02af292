import TwoPhase.Proofs.Parser.Passing

/-!
# What is parsed was written

The tokens that are consumed for an expression write it.  The induction is on the bound on nesting,
with one fact for each part of the grammar that may nest (`Writes`).

An expression with a closure in it is not written in this grammar, and a closure may hold a `begin`
block that splices text in.  So nothing is said of the tokens of such an expression (`Wrote`), nor
of any that it is a part of.
-/

namespace TwoPhase.Parser

open Buffer (passes_append)
open Run (Triple Yields)

variable {σ α β : Type} {host : Host σ} {rounds limit : Nat} {again : Again σ} {s t : State σ}
  {b : Buffer} {e left right : Expr} {precedence : Precedence} {kind : TokenKind}

/-! ## Rules -/

/-- What is done behind a part that is known. -/
theorem after {body : Parse σ α} {next : α → Parse σ β} {a : α} {R : β → State σ → Prop}
    (hbody : body s = .value a t) (hnext : Yields (· = t) (next a) R) :
    Yields (· = s) (body >>= next) R := by
  rintro _ rfl
  rw [Run.bind_apply, hbody]
  exact hnext t rfl

/-- What is done from any state with a property. -/
theorem each {P : State σ → Prop} {body : Parse σ α} {R : α → State σ → Prop}
    (h : ∀ t, P t → Yields (· = t) body R) : Yields P body R :=
  fun t ht => h t ht t rfl

theorem gives {a : α} {R : α → State σ → Prop} (h : R a s) :
    Yields (· = s) (pure a : Parse σ α) R := by
  rintro _ rfl
  exact h

/-- What is done behind a token that must be there. -/
theorem expected {next : Token → Parse σ β} {R : β → State σ → Prop}
    (hnext : s.buffer.next.1.kind = kind → Yields (· = s.next) (next s.buffer.next.1) R) :
    Yields (· = s) (expect kind >>= next) R := by
  by_cases hkind : s.buffer.next.1.kind = kind
  · exact after (expect_apply hkind) (hnext hkind)
  · have hfail : ∃ e t, (expect kind : Parse σ Token) s = .error e t := by
      simp only [expect, Run.bind_apply, peek_apply, if_neg hkind]
      exact ⟨_, _, rfl⟩
    obtain ⟨e, t, hfail⟩ := hfail
    rintro _ rfl
    rw [Run.bind_apply, hfail]
    trivial

theorem yields_true {P : State σ → Prop} (body : Parse σ α) : Yields P body fun _ _ => True := by
  intro s _
  cases body s <;> trivial

/-- What holds when a round of a loop is over. -/
def Rounded (I : α → State σ → Prop) (R : β → State σ → Prop) : Run.Step α β → State σ → Prop
  | .next a => I a
  | .done b => R b

/-- A loop ends with what its last round gives, if every round keeps what is known. -/
theorem loops {step : α → Parse σ (Run.Step α β)} {I : α → State σ → Prop}
    {R : β → State σ → Prop}
    (hstep : ∀ a t, I a t → Yields (· = t) (step a) (Rounded I R)) (rounds : Nat) (a : α) :
    Yields (I a) (Run.iterate rounds step a) R := by
  refine Triple.iterate (fun a => each fun t ht => (hstep a t ht).weaken (fun _ => id) ?_
    (fun _ _ => id)) rounds a
  intro result _ h
  cases result with
  | next a => exact h
  | done b => exact h

/-! ## What was written -/

/-- If an expression stands for a term, then tokens that write the term were consumed. -/
def Wrote (b : Buffer) (precedence : Precedence) (e : Expr) (t : State σ) : Prop :=
  ∀ term, e.term? = some term → ∃ kinds, Written precedence kinds term ∧ b.Passes kinds t.buffer

/-- If expressions stand for terms, then tokens that write the terms were consumed, and a closing
delimiter behind them. -/
def WroteAll (b : Buffer) (closing : TokenKind) (items : List Expr) (t : State σ) : Prop :=
  ∀ terms, terms? items = some terms → ∃ kinds, WrittenAll kinds terms ∧
    b.Passes (kinds ++ [closing]) t.buffer

theorem Wrote.looser (h : Wrote b precedence.tighter e t) : Wrote b precedence e t := by
  intro term hterm
  obtain ⟨kinds, hwritten, hpasses⟩ := h term hterm
  exact ⟨kinds, hwritten.looser, hpasses⟩

theorem Wrote.of_lookAhead {c : Buffer} (h : Wrote c precedence e t)
    (hb : b.lookAhead = c.lookAhead) : Wrote b precedence e t := by
  intro term hterm
  obtain ⟨kinds, hwritten, hpasses⟩ := h term hterm
  exact ⟨kinds, hwritten, .of_lookAhead hb hpasses⟩

/-- Looking at the next token changes nothing. -/
theorem Wrote.looked {u : State σ} (h : Wrote b precedence e t)
    (hu : t.buffer.lookAhead = u.buffer.lookAhead) : Wrote b precedence e u := by
  intro term hterm
  obtain ⟨kinds, hwritten, hpasses⟩ := h term hterm
  refine ⟨kinds, hwritten, ?_⟩
  rw [← List.append_nil kinds]
  exact hpasses.append hu

/-- The precedence of operands whose operators bind less loosely than a limit. -/
def precedenceOf : Nat → Precedence
  | 0 => .unary
  | 1 => .product
  | 2 => .sum
  | 3 => .compare
  | 4 => .equality
  | 5 => .and
  | _ => .or

theorem precedenceOf_looseness (op : BinaryOp) :
    precedenceOf (looseness op) = op.precedence.tighter := by
  cases op <;> rfl

theorem precedenceOf_succ (op : BinaryOp) :
    precedenceOf (looseness op + 1) = op.precedence := by
  cases op <;> rfl

theorem Wrote.mono {m n : Nat} (h : Wrote b (precedenceOf m) e t) (hle : m ≤ n) :
    Wrote b (precedenceOf n) e t := by
  induction n, hle using Nat.le_induction with
  | base => exact h
  | succ n _ ih =>
      match n, ih with
      | 0, ih | 1, ih | 2, ih | 3, ih | 4, ih | 5, ih => exact ih.looser
      | n + 6, ih => exact ih

/-- What joining operands up to a limit gives: no operator that follows belongs to it. -/
def Joined (b : Buffer) (limit : Nat) (e : Expr) (t : State σ) : Prop :=
  Wrote b (precedenceOf limit) e t ∧
    ∀ op, operator? t.buffer.next.1.kind = some op → limit ≤ looseness op

/-- Parts of the grammar that consume what writes their result. -/
structure Writes (again : Again σ) : Prop where
  expr : ∀ s, Yields (· = s) (again .expr) (Wrote s.buffer .or)
  joined : ∀ limit s, Yields (· = s) (again (.joined limit)) (Joined s.buffer limit)
  unary : ∀ s, Yields (· = s) (again .unary) (Wrote s.buffer .unary)

/-! ## Items -/

theorem terms?_append {items : List Expr} {terms : List Term}
    (h : terms? (items ++ [e]) = some terms) : ∃ front term,
      terms? items = some front ∧ e.term? = some term ∧ terms = front ++ [term] := by
  induction items generalizing terms with
  | nil =>
      obtain ⟨term, hterm, hrest⟩ := Option.bind_eq_some_iff.1 h
      obtain ⟨_, ⟨⟩, rfl⟩ := Option.map_eq_some_iff.1 hrest
      exact ⟨[], term, rfl, hterm, rfl⟩
  | cons item items ih =>
      obtain ⟨first, hfirst, hrest⟩ := Option.bind_eq_some_iff.1 h
      obtain ⟨others, hothers, rfl⟩ := Option.map_eq_some_iff.1 hrest
      obtain ⟨front, term, hfront, hterm, rfl⟩ := ih hothers
      exact ⟨first :: front, term, by simp only [terms?, hfirst, hfront, Option.bind_some,
        Option.map_some], hterm, rfl⟩

/-- Tokens that write some items with a comma behind each, so that more may follow. -/
def WrittenFront (kinds : List TokenKind) (terms : List Term) : Prop :=
  ∀ more others, WrittenAll more others → WrittenAll (kinds ++ more) (terms ++ others)

/-- What the loop over items keeps: the items were written, and more may follow unless the closing
delimiter does. -/
def Listed (b : Buffer) (closing : TokenKind) (items : List Expr) (t : State σ) : Prop :=
  ∀ terms, terms? items.reverse = some terms → ∃ kinds, b.Passes kinds t.buffer ∧
    (WrittenFront kinds terms ∨ WrittenAll kinds terms ∧ t.buffer.next.1.kind = closing)

theorem Listed.item {closing : TokenKind} {items : List Expr} (h : Listed b closing items s)
    (hclosing : s.buffer.next.1.kind ≠ closing) (he : Wrote s.buffer .or e t)
    {separator : List TokenKind} {c : State σ} (hc : t.buffer.Passes separator c.buffer)
    (hseparator : separator = [.comma] ∨ separator = [] ∧ c.buffer.next.1.kind = closing) :
    Listed b closing (e :: items) c := by
  intro terms hterms
  rw [List.reverse_cons] at hterms
  obtain ⟨front, term, hfront, hterm, rfl⟩ := terms?_append hterms
  obtain ⟨kinds, hpasses, hwritten⟩ := h front hfront
  obtain ⟨more, hmore, hbehind⟩ := he term hterm
  have hopen := hwritten.resolve_right fun hlast => hclosing hlast.2
  refine ⟨kinds ++ (more ++ separator), hpasses.append (hbehind.append hc), ?_⟩
  rcases hseparator with rfl | ⟨rfl, hnext⟩
  · refine .inl fun rest others hrest => ?_
    have hcons := hopen _ _ (.cons hmore hrest)
    simpa using hcons
  · refine .inr ⟨?_, hnext⟩
    rw [List.append_nil]
    exact hopen _ _ (.last hmore)

theorem itemRound_listed (hagain : Writes again) {closing : TokenKind} {delimiter : Char}
    {span : Span} {items : List Expr} (h : Listed b closing items s) :
    Yields (· = s) (itemRound again closing delimiter span items)
      (Rounded (Listed b closing) fun found => WroteAll b closing found.1) := by
  refine after (peek_apply s) ?_
  by_cases hclosing : s.buffer.next.1.kind = closing
  · rw [if_pos hclosing]
    refine after (advance_apply _) (gives fun terms hterms => ?_)
    obtain ⟨kinds, hpasses, hwritten⟩ := h terms hterms
    refine ⟨kinds, ?_, hpasses.append ⟨hclosing, ?_⟩⟩
    · rcases hwritten with hfront | ⟨hall, _⟩
      · simpa using hfront [] [] .nil
      · exact hall
    · rw [State.next_lookAhead]
      rfl
  · rw [if_neg hclosing]
    split
    · exact fun _ _ => trivial
    · refine Triple.bind (hagain.expr _) fun item => each fun t ht => ?_
      have hitem : Wrote s.buffer .or item t := ht.of_lookAhead rfl
      refine after (check_apply t closing) ?_
      by_cases hnext : t.buffer.next.1.kind = closing
      · rw [beq_iff_eq.2 hnext]
        have hnone : t.buffer.Passes [] t.lookAhead.buffer := rfl
        refine gives (h.item hclosing hitem hnone (.inr ⟨rfl, ?_⟩))
        rwa [State.buffer_lookAhead, Buffer.next_lookAhead]
      · rw [beq_eq_false_iff_ne.2 hnext]
        refine expected fun hcomma => gives (h.item hclosing hitem (.one ?_ ?_) (.inl rfl))
        · rwa [State.buffer_lookAhead, Buffer.next_lookAhead] at hcomma
        · rw [State.next_lookAhead, State.buffer_next]

theorem delimited_wroteAll (hagain : Writes again) (opening closing : TokenKind)
    (delimiter : Char) (s : State σ) :
    Yields (· = s) (delimited rounds again opening closing delimiter) fun found t =>
      s.buffer.next.1.kind = opening ∧ WroteAll s.next.buffer closing found.1 t := by
  rw [delimited_eq]
  refine expected fun hopening => ?_
  have hnone : Listed s.next.buffer closing [] s.next := fun terms hterms => by
    cases hterms
    exact ⟨[], rfl, .inl fun more others hmore => hmore⟩
  refine (loops (fun items t ht => itemRound_listed hagain ht) rounds []).weaken ?_
    (fun _ _ hfound => ⟨hopening, hfound⟩) (fun _ _ => id)
  rintro _ rfl
  exact hnone

/-! ## Expressions -/

theorem literal?_written {token : Token} (hint : ∀ value, token.kind = .int value → 0 ≤ value)
    (h : literal? token = some e) {term : Term} (hterm : e.term? = some term) :
    Written .primary [token.kind] term := by
  cases hkind : token.kind with
  | int value =>
      simp only [literal?, hkind, Option.some.injEq] at h
      subst h
      cases hterm
      exact .int (hint value hkind)
  | str value =>
      simp only [literal?, hkind, Option.some.injEq] at h
      subst h
      cases hterm
      exact .str value
  | kwTrue =>
      simp only [literal?, hkind, Option.some.injEq] at h
      subst h
      cases hterm
      exact .kwTrue
  | kwFalse =>
      simp only [literal?, hkind, Option.some.injEq] at h
      subst h
      cases hterm
      exact .kwFalse
  | kwNil =>
      simp only [literal?, hkind, Option.some.injEq] at h
      subst h
      cases hterm
      exact .kwNil
  | _ => simp only [literal?, hkind, reduceCtorEq] at h

theorem primary_wrote (hnames : host.Names) (hagain : Writes again) (s : State σ) :
    Yields (· = s) (primary host rounds again) (Wrote s.buffer .primary) := by
  refine after (peek_apply s) ?_
  cases hliteral : literal? s.buffer.next.1 with
  | some e =>
      refine after (advance_apply _) (gives fun term hterm => ⟨_, ?_, .one rfl ?_⟩)
      · exact literal?_written (fun value hkind => s.buffer.next_int hkind) hliteral hterm
      · rw [State.next_lookAhead, State.buffer_next]
  | none =>
      dsimp only
      split
      · rename_i name hkind
        obtain ⟨e, h, hresolve, hname⟩ :=
          resolve_apply hnames name s.buffer.next.1.span s.lookAhead
        refine after hresolve (after (advance_apply _) (gives fun term hterm => ?_))
        cases hname.symm.trans hterm
        refine ⟨_, .name name, .one hkind ?_⟩
        rw [State.buffer_next, State.buffer_lookAhead, Buffer.next_lookAhead]
      · rename_i hkind
        refine after (advance_apply _) ?_
        rw [State.next_lookAhead]
        refine Triple.bind (hagain.expr _) fun inner => each fun t ht => expected fun hclose => ?_
        refine gives fun term hterm => ?_
        rw [Expr.term?_withSpan] at hterm
        obtain ⟨kinds, hwritten, hpasses⟩ := ht term hterm
        exact ⟨_, .parens hwritten, hkind, hpasses.append (.one hclose rfl)⟩
      · refine Triple.bind (delimited_wroteAll hagain _ _ _ _) fun found => each fun t ht =>
          gives fun term hterm => ?_
        obtain ⟨hopen, hitems⟩ := ht
        obtain ⟨terms, hterms, rfl⟩ := Option.map_eq_some_iff.1 hterm
        obtain ⟨kinds, hwritten, hpasses⟩ := hitems terms hterms
        rw [State.buffer_lookAhead, Buffer.next_lookAhead] at hopen
        rw [State.next_lookAhead] at hpasses
        exact ⟨_, .list hwritten, hopen, hpasses⟩
      · refine after (advance_apply _) (Triple.bind (yields_true _) fun f => each fun t _ =>
          gives fun term hterm => ?_)
        cases hterm
      · exact fun _ _ => trivial

theorem call_wrote (hnames : host.Names) (hagain : Writes again) (s : State σ) :
    Yields (· = s) (call host rounds again) (Wrote s.buffer .call) := by
  rw [call_eq]
  refine Triple.bind (Q := Wrote s.buffer .call) ?_ fun callee => ?_
  · exact (primary_wrote hnames hagain s).weaken (fun _ => id) (fun _ _ h => Wrote.looser h)
      (fun _ _ => id)
  refine loops (fun callee t ht => ?_) rounds callee
  refine after (check_apply t _) ?_
  by_cases hparen : t.buffer.next.1.kind = .parenOpen
  · rw [beq_iff_eq.2 hparen]
    refine Triple.bind (delimited_wroteAll hagain _ _ _ _) fun found => each fun u hu =>
      gives fun term hterm => ?_
    obtain ⟨hopen, hargs⟩ := hu
    obtain ⟨f, hf, hrest⟩ := Option.bind_eq_some_iff.1 hterm
    obtain ⟨terms, hterms, rfl⟩ := Option.map_eq_some_iff.1 hrest
    obtain ⟨kinds, hwritten, hpasses⟩ := ht f hf
    obtain ⟨more, hmore, hbehind⟩ := hargs terms hterms
    rw [State.next_lookAhead] at hbehind
    exact ⟨_, .call hwritten hmore, hpasses.append ⟨hparen, hbehind⟩⟩
  · rw [beq_eq_false_iff_ne.2 hparen]
    exact gives (ht.looked rfl)

theorem unary_wrote (hnames : host.Names) (hagain : Writes again) (s : State σ) :
    Yields (· = s) (unary host rounds again) (Wrote s.buffer .unary) := by
  have hoperator (op : UnaryOp) (hkind : s.buffer.next.1.kind = op.kind) :
      Yields (· = s.lookAhead) (do
        let _ ← advance
        let operand ← again .unary
        return .unary (s.buffer.next.1.span.merge operand.span) op operand : Parse σ Expr)
        (Wrote s.buffer .unary) := by
    refine after (advance_apply _) (Triple.bind (hagain.unary _) fun operand => each fun t ht =>
      gives fun term hterm => ?_)
    obtain ⟨inner, hinner, rfl⟩ := Option.map_eq_some_iff.1 hterm
    obtain ⟨kinds, hwritten, hpasses⟩ := ht inner hinner
    rw [State.next_lookAhead] at hpasses
    exact ⟨_, .unary op hwritten, hkind, hpasses⟩
  refine after (peek_apply s) ?_
  dsimp only
  split
  · exact hoperator .neg ‹_›
  · exact hoperator .not ‹_›
  · refine (call_wrote hnames hagain _).weaken (fun _ => id) (fun e t h => ?_) (fun _ _ => id)
    have hcall : Wrote s.lookAhead.buffer Precedence.unary.tighter e t := h
    exact hcall.looser.of_lookAhead rfl

/-- The loop keeps that no operator belongs into what was read so far, and that it was written. -/
def Joining (b : Buffer) (limit : Nat) (left : Expr) (t : State σ) : Prop :=
  ∃ m ≤ limit, Wrote b (precedenceOf m) left t ∧
    ∀ op, operator? t.buffer.next.1.kind = some op → m ≤ looseness op + 1

theorem joinRound_joining (hagain : Writes again) (h : Joining b limit left s) :
    Yields (· = s) (joinRound again limit left) (Rounded (Joining b limit) (Joined b limit)) := by
  obtain ⟨m, hm, hleft, htight⟩ := h
  refine after (peek_apply s) ?_
  cases hop : operator? s.buffer.next.1.kind with
  | none =>
      refine gives ⟨(hleft.mono hm).looked rfl, fun op hop' => ?_⟩
      rw [State.buffer_lookAhead, Buffer.next_lookAhead, hop] at hop'
      cases hop'
  | some op =>
      dsimp only
      by_cases hlimit : limit ≤ looseness op
      · rw [if_pos hlimit]
        refine gives ⟨(hleft.mono hm).looked rfl, fun op' hop' => ?_⟩
        rw [State.buffer_lookAhead, Buffer.next_lookAhead, hop] at hop'
        cases hop'
        exact hlimit
      · rw [if_neg hlimit]
        refine after (advance_apply _) (Triple.bind (hagain.joined _ _) fun right =>
          each fun t ht => gives ⟨looseness op + 1, by omega, ?_, ?_⟩)
        · rw [precedenceOf_succ]
          intro term hterm
          obtain ⟨l, hl, hrest⟩ := Option.bind_eq_some_iff.1 hterm
          obtain ⟨r, hr, rfl⟩ := Option.map_eq_some_iff.1 hrest
          obtain ⟨kinds, hwritten, hpasses⟩ := hleft.mono (htight op hop) l hl
          obtain ⟨more, hmore, hbehind⟩ := ht.1 r hr
          rw [precedenceOf_succ] at hwritten
          rw [precedenceOf_looseness] at hmore
          rw [State.next_lookAhead] at hbehind
          exact ⟨_, .binary op hwritten hmore, hpasses.append ⟨operator?_eq_some hop, hbehind⟩⟩
        · exact fun op' hop' => Nat.succ_le_succ (ht.2 op' hop')

theorem joined_wrote (hnames : host.Names) (hagain : Writes again) (limit : Nat) (s : State σ) :
    Yields (· = s) (joined host rounds again limit) (Joined s.buffer limit) := by
  rw [joined_eq]
  refine Triple.bind (Q := Joining s.buffer limit) ?_ fun left => ?_
  · exact (unary_wrote hnames hagain s).weaken (fun _ => id)
      (fun _ _ h => ⟨0, Nat.zero_le _, h, fun _ _ => Nat.zero_le _⟩) (fun _ _ => id)
  · exact loops (fun e t ht => joinRound_joining hagain ht) rounds left

/-- Whatever the bound, what is parsed was written. -/
theorem run_writes (hnames : host.Names) (bound : Nat) : Writes (run host bound) := by
  induction bound with
  | zero => exact ⟨fun _ => .cutOff, fun _ _ => .cutOff, fun _ => .cutOff⟩
  | succ bound ih =>
      refine ⟨fun s => ?_, fun limit s => ?_, fun s => ?_⟩ <;> rw [run_succ]
      · exact (joined_wrote hnames ih 6 s).weaken (fun _ => id) (fun _ _ h => h.1) (fun _ _ => id)
      · exact joined_wrote hnames ih limit s
      · exact unary_wrote hnames ih s

end TwoPhase.Parser
