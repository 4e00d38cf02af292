import TwoPhase.Proofs.Parser.Nesting

/-!
# Every parse ends

Each round of a loop that goes on takes at least one token (`Keeper.Parts.loop`), and so does
everything that may nest.  No token but the last one is empty.  So as long as the text does not grow
beyond a limit, no loop takes more rounds than the limit has bytes, and nothing nests deeper.

Only a `begin` block can keep a parse from ending, by having no end itself or by splicing in text
again and again.  To say that it does not, a parse is set beside one that gives up on such a block
(`Host.watched`).  If the second parse does not have to give up, both end, and in the same way
(`runUnit_ends`).

What is left at a cursor is counted against the limit (`Buffer.Room`).  What takes a token before it
nests has one token less to go, which is the step of the induction on the bound.
-/

namespace TwoPhase

/-- A host that gives up on a `begin` block which has no end, or behind which the text is longer
than a limit.  It remembers that it did. -/
def Host.watched {σ : Type} (host : Host σ) (limit : Nat) : Host (σ × Bool) where
  resolveGlobal name s :=
    let (cell, h) := host.resolveGlobal name s.1
    (cell, (h, s.2))
  installSub name function s := (host.installSub name function s.1, s.2)
  runBegin left body span := fun (buffer, h, gaveUp) =>
    match host.runBegin left body span (buffer, h) with
    | .value () (buffer, h) =>
      if Text.byteLength buffer.chars ≤ limit then .value () (buffer, h, gaveUp)
      else .error default (buffer, h, true)
    | .error e (buffer, h) => .error e (buffer, h, gaveUp)
    | .cutOff => .error default (buffer, h, true)
  nesting s := host.nesting s.1

/-! ## Room -/

namespace Buffer

variable {b c : Buffer} {limit n : Nat}

theorem cursor_le_byteLength (b : Buffer) : b.cursor ≤ Text.byteLength b.chars := by
  rw [← b.byteLength_behind]
  exact Text.byteLength_mono b.behind_le

/-- From the cursor on there are fewer than `n` bytes up to a limit. -/
def Room (limit n : Nat) (b : Buffer) : Prop := limit < n + b.cursor

theorem Room.grow (h : Room limit n b) (hgrows : b.Grows c) : Room limit n c :=
  Nat.lt_of_lt_of_le h (Nat.add_le_add_left hgrows.cursor_le n)

theorem Room.past (h : Room limit (n + 1) b) (hpast : b.Past c) : Room limit n c := by
  have hlt := hpast.cursor_lt
  unfold Room at h ⊢
  omega

theorem Room.succ (h : Room limit n b) : Room limit (n + 1) b := by
  unfold Room at h ⊢
  omega

end Buffer

namespace Parser

open Buffer (Room)

variable {σ α β : Type}

/-! ## Progress -/

/-- The loops of the grammar: what a round starts with, and what the loop gives. -/
inductive Loop : Type → Type → Type where
  | statements (level : Level) : Loop (List Stmt) Block
  | items (closing : TokenKind) (delimiter : Char) (openSpan : Span) :
      Loop (List Expr) (List Expr × Span)
  | names (openSpan : Span) : Loop (List String) (List String)
  | calls : Loop Expr Expr
  | operators (limit : Nat) : Loop Expr Expr

/-- A round of a loop. -/
def Loop.round (host : Host σ) (rounds : Nat) (again : Again σ) {α β : Type} :
    Loop α β → α → Parse σ (Run.Step α β)
  | .statements level => Parser.round host rounds again level
  | .items closing delimiter openSpan => itemRound again closing delimiter openSpan
  | .names openSpan => nameRound openSpan
  | .calls => callRound rounds again
  | .operators limit => joinRound again limit

theorem Goal.Taken.past {named : CellRef → String → Prop} {goal : Goal α} {a : α} {b c : Buffer}
    (h : goal.Taken named b a c) : b.Past c := by
  cases goal with
  | expr | joined | unary =>
      have h : Expr.Taken named b a c := h
      exact h.takes.past
  | block =>
      have h : Block.Taken named b a c := h
      exact h.takes.past
  | conditional =>
      have h : Stmt.Taken named b a c := h
      exact h.takes.past

variable {host : Host σ} {rounds limit : Nat} {again : Again σ} {again' : Again (σ × Bool)}
  {s t : State σ}

/-- A round that goes on has taken a token. -/
theorem Keeper.Parts.loop {K : Keeper host} (h : K.Parts again) (loop : Loop α β) (value : α)
    (s : State σ) : K.Does s (loop.round host rounds again value) fun step t =>
      ∀ more, step = .next more → s.buffer.Past t.buffer := by
  cases loop with
  | statements level =>
      refine (h.round level value s).weaken (fun _ => id) ?_ fun _ _ _ _ => trivial
      rintro _ t _ hstep more rfl
      obtain ⟨stmt, _, hstmt⟩ := hstep
      exact hstmt.past
  | items closing delimiter openSpan =>
      refine (h.itemRound closing delimiter openSpan value s).weaken (fun _ => id) ?_
        fun _ _ _ _ => trivial
      rintro _ t _ hstep more rfl
      obtain ⟨item, c, _, hitem, hc⟩ := hstep
      exact hitem.takes.past.mono hc
  | names openSpan =>
      exact (Keeper.Parts.nameRound openSpan value s).weaken (fun _ => id)
        (fun _ _ _ hpast _ _ => hpast) fun _ _ _ _ => trivial
  | calls =>
      refine (h.callRound value s).weaken (fun _ => id) ?_ fun _ _ _ _ => trivial
      rintro _ t _ hstep more rfl
      exact hstep.1
  | operators limit =>
      refine (h.joinRound limit value s).weaken (fun _ => id) ?_ fun _ _ _ _ => trivial
      rintro _ t _ hstep more rfl
      exact hstep.1

/-- Nothing but the splices is known of the host. -/
def Keeper.idle (hsplices : host.Splices) : Keeper host where
  Holds _ _ := True
  splices := hsplices
  grows _ _ := trivial
  resolves _ _ := trivial
  installs _ _ _ _ := trivial
  begins _ _ _ _ := trivial

/-! ## Parses beside watched ones -/

/-- The state of the watched parse, which has not given up. -/
def State.watched (s : State σ) : State (σ × Bool) := ⟨s.buffer, s.scopes, (s.host, false)⟩

/-- The watched parse gives up, or both parses end in the same way. -/
inductive Ended (limit : Nat) (s : State σ) (body : Parse σ α) (body' : Parse (σ × Bool) α) :
    Prop where
  | gaveUp {e p} (h : body' s.watched = .error e p) (hgaveUp : p.host.2 = true) :
      Ended limit s body body'
  | value {a t} (h : body s = .value a t) (h' : body' s.watched = .value a t.watched)
      (hgrows : s.buffer.Grows t.buffer) (hfits : Text.byteLength t.buffer.chars ≤ limit) :
      Ended limit s body body'
  | error {e t} (h : body s = .error e t) (h' : body' s.watched = .error e t.watched) :
      Ended limit s body body'

/-- If the text keeps to the limit, a parse ends, unless the watched one gives up. -/
def Ends (limit : Nat) (s : State σ) (body : Parse σ α) (body' : Parse (σ × Bool) α) : Prop :=
  Text.byteLength s.buffer.chars ≤ limit → Ended limit s body body'

variable {a : α} {kind : TokenKind}

/-- What comes to the same as a parse from a later state. -/
theorem Ended.back {body : Parse σ α} {body' : Parse (σ × Bool) α} {rest : Parse σ α}
    {rest' : Parse (σ × Bool) α} (h : Ended limit t rest rest') (hbody : body s = rest t)
    (hbody' : body' s.watched = rest' t.watched) (hgrows : s.buffer.Grows t.buffer) :
    Ended limit s body body' := by
  cases h with
  | gaveUp hend hgaveUp => exact .gaveUp (hbody'.trans hend) hgaveUp
  | value hend hend' hmore hfits =>
      exact .value (hbody.trans hend) (hbody'.trans hend') (hgrows.trans hmore) hfits
  | error hend hend' => exact .error (hbody.trans hend) (hbody'.trans hend')

namespace Ends

/-! ### Rules -/

section

variable {body : Parse σ α} {body' : Parse (σ × Bool) α} {next : α → Parse σ β}
  {next' : α → Parse (σ × Bool) β}

theorem pure (a : α) : Ends limit s (Pure.pure a : Parse σ α) (Pure.pure a) :=
  fun hfits => .value rfl rfl (.refl _) hfits

theorem fail (fault : ParseFault) (span : Span) :
    Ends limit s (Parser.fail fault span : Parse σ α) (Parser.fail fault span) :=
  fun _ => .error rfl rfl

theorem bind (h : Ends limit s body body')
    (hnext : ∀ a t, body s = .value a t → s.buffer.Grows t.buffer →
      Ends limit t (next a) (next' a)) :
    Ends limit s (body >>= next) (body' >>= next') := by
  intro hfits
  cases h hfits with
  | gaveUp hend hgaveUp => exact .gaveUp (by rw [Run.bind_apply, hend]) hgaveUp
  | value hend hend' hgrows hfits =>
      exact (hnext _ _ hend hgrows hfits).back (by rw [Run.bind_apply, hend])
        (by rw [Run.bind_apply, hend']) hgrows
  | error hend hend' =>
      exact .error (by rw [Run.bind_apply, hend]) (by rw [Run.bind_apply, hend'])

theorem look {next : Token → Parse σ β} {next' : Token → Parse (σ × Bool) β}
    (hnext : Ends limit s.lookAhead (next s.buffer.next.1) (next' s.buffer.next.1)) :
    Ends limit s (peek >>= next) (peek >>= next') :=
  fun hfits => (hnext hfits).back (by rw [Run.bind_apply, peek_apply])
    (by rw [Run.bind_apply, peek_apply]; rfl) (.lookAhead _)

theorem take {next : Token → Parse σ β} {next' : Token → Parse (σ × Bool) β}
    (hnext : Ends limit s.next (next s.buffer.next.1) (next' s.buffer.next.1)) :
    Ends limit s (advance >>= next) (advance >>= next') := by
  intro hfits
  rw [← Buffer.chars_next] at hfits
  exact (hnext hfits).back rfl rfl (.next _)

theorem checked {next : Bool → Parse σ β} {next' : Bool → Parse (σ × Bool) β}
    (hnext : Ends limit s.lookAhead (next (s.buffer.next.1.kind == kind))
      (next' (s.buffer.next.1.kind == kind))) :
    Ends limit s (check kind >>= next) (check kind >>= next') :=
  fun hfits => (hnext hfits).back (by rw [Run.bind_apply, check_apply])
    (by rw [Run.bind_apply, check_apply]; rfl) (.lookAhead _)

theorem eaten {next : Bool → Parse σ β} {next' : Bool → Parse (σ × Bool) β}
    (htrue : s.buffer.next.1.kind = kind → Ends limit s.next (next true) (next' true))
    (hfalse : Ends limit s.lookAhead (next false) (next' false)) :
    Ends limit s (eat kind >>= next) (eat kind >>= next') := by
  intro hfits
  have heat' : (eat kind : Parse (σ × Bool) Bool) s.watched
      = if s.buffer.next.1.kind = kind then .value true s.next.watched
        else .value false s.lookAhead.watched := eat_apply _ kind
  by_cases hkind : s.buffer.next.1.kind = kind
  · rw [if_pos hkind] at heat'
    have hchars : Text.byteLength s.next.buffer.chars ≤ limit := by
      rwa [State.buffer_next, Buffer.chars_next]
    exact (htrue hkind hchars).back (by rw [Run.bind_apply, eat_apply, if_pos hkind])
      (by rw [Run.bind_apply, heat']) (.next _)
  · rw [if_neg hkind] at heat'
    exact (hfalse hfits).back (by rw [Run.bind_apply, eat_apply, if_neg hkind])
      (by rw [Run.bind_apply, heat']) (.lookAhead _)

theorem expected {next : Token → Parse σ β} {next' : Token → Parse (σ × Bool) β}
    (hnext : s.buffer.next.1.kind = kind →
      Ends limit s.next (next s.buffer.next.1) (next' s.buffer.next.1)) :
    Ends limit s (expect kind >>= next) (expect kind >>= next') := by
  by_cases hkind : s.buffer.next.1.kind = kind
  · intro hfits
    rw [← Buffer.chars_next] at hfits
    have hexpect' : (expect kind : Parse (σ × Bool) Token) s.watched
        = .value s.buffer.next.1 s.next.watched := expect_apply hkind
    exact (hnext hkind hfits).back (by rw [Run.bind_apply, expect_apply hkind])
      (by rw [Run.bind_apply, hexpect']) (.next _)
  · have hfail : Ends limit s (expect kind) (expect kind) := by
      refine look ?_
      rw [if_neg hkind, if_neg hkind]
      exact fail _ _
    refine hfail.bind fun a t hrun _ => ?_
    simp only [expect, Run.bind_apply, peek_apply, if_neg hkind] at hrun
    cases hrun

theorem separated {next : Parse σ β} {next' : Parse (σ × Bool) β}
    (hnext : ∀ t, s.buffer.Grows t.buffer → Ends limit t next next') :
    Ends limit s
      (do
        if !(← check kind) then let _ ← expect .comma
        next)
      (do
        if !(← check kind) then let _ ← expect .comma
        next') := by
  refine checked ?_
  cases s.buffer.next.1.kind == kind with
  | true => exact hnext _ (.lookAhead _)
  | false => exact expected fun _ => hnext _ (.of_lookAhead (.next _))

theorem ident : Ends limit s expectIdent expectIdent := by
  refine look ?_
  cases s.buffer.next.1.kind with
  | ident name => exact take (pure _)
  | _ => exact fail _ _

theorem name : Ends limit s expectLexicalName expectLexicalName := by
  refine ident.bind fun found t _ _ => ?_
  obtain ⟨name, span⟩ := found
  dsimp only
  split
  · exact fail _ _
  · exact pure _

theorem terminator : Ends limit s expectTerminator expectTerminator := by
  refine eaten (fun _ => pure _) (look ?_)
  cases s.lookAhead.buffer.next.1.kind with
  | braceClose => exact pure _
  | endOfInput => exact pure _
  | _ => exact fail _ _

theorem inScope (scope : ScopeKind) (names : List String)
    (hbody : ∀ scopes, Ends limit { s with scopes } body body') :
    Ends limit s (Parser.inScope scope names body) (Parser.inScope scope names body') := by
  intro hfits
  have hin' : Parser.inScope scope names body' s.watched
      = (body' { s with scopes := .declaring scope names :: s.scopes : State σ }.watched).mapState
          fun t => { t with scopes := t.scopes.tail } := rfl
  cases hbody (.declaring scope names :: s.scopes) hfits with
  | @gaveUp e p hend hgaveUp =>
      refine .gaveUp (e := e) (p := { p with scopes := p.scopes.tail }) ?_ hgaveUp
      rw [hin', hend]
      rfl
  | @value a t hend hend' hgrows hfits =>
      refine .value (a := a) (t := { t with scopes := t.scopes.tail }) ?_ ?_ hgrows hfits
      · rw [inScope_apply, hend]
        rfl
      · rw [hin', hend']
        rfl
  | @error e t hend hend' =>
      refine .error (e := e) (t := { t with scopes := t.scopes.tail }) ?_ ?_
      · rw [inScope_apply, hend]
        rfl
      · rw [hin', hend']
        rfl

/-- A loop of which every round that goes on comes closer to the limit. -/
theorem iterate {step : α → Parse σ (Run.Step α β)}
    {step' : α → Parse (σ × Bool) (Run.Step α β)}
    (hround : ∀ a t, s.buffer.Grows t.buffer → Ends limit t (step a) (step' a))
    (hpast : ∀ {a b t u}, step a t = .value (.next b) u → t.buffer.Past u.buffer)
    (hroom : s.buffer.Room limit rounds) (a : α) :
    Ends limit s (Run.iterate rounds step a) (Run.iterate rounds step' a) := by
  induction rounds generalizing s a with
  | zero =>
      intro hfits
      have hcursor := s.buffer.cursor_le_byteLength
      unfold Room at hroom
      omega
  | succ rounds ih =>
      intro hfits
      cases hround a s (.refl _) hfits with
      | gaveUp hend hgaveUp => exact .gaveUp (by rw [Run.iterate, hend]) hgaveUp
      | @value result t hend hend' hgrows hfits =>
          cases result with
          | next b =>
              have hrest := ih (fun a u hu => hround a u (hgrows.trans hu))
                (hroom.past (hpast hend)) b hfits
              exact hrest.back (by rw [Run.iterate, hend]) (by rw [Run.iterate, hend']) hgrows
          | done c =>
              exact .value (by rw [Run.iterate, hend]) (by rw [Run.iterate, hend']) hgrows hfits
      | error hend hend' =>
          exact .error (by rw [Run.iterate, hend]) (by rw [Run.iterate, hend'])

end

/-! ### Events -/

theorem resolve (name : String) (span : Span) :
    Ends limit s (resolve host name span) (resolve (host.watched limit) name span) := by
  obtain ⟨buffer, scopes, h⟩ := s
  intro hfits
  cases hlexical : lexical? name scopes with
  | some ref =>
      refine .value (a := .lexical span ref) ?_ ?_ (.refl buffer) hfits
      · simp only [Parser.resolve, Run.modifyGet_apply, hlexical]
      · simp only [Parser.resolve, State.watched, Run.modifyGet_apply, hlexical]
  | none =>
      refine .value (a := .global span (host.resolveGlobal name h).1)
        (t := ⟨buffer, scopes, (host.resolveGlobal name h).2⟩) ?_ ?_ (.refl buffer) hfits
      · simp only [Parser.resolve, Run.modifyGet_apply, hlexical]
      · simp only [Parser.resolve, State.watched, Run.modifyGet_apply, hlexical]
        rfl

theorem installSub (name : String) (function : Function) :
    Ends limit s (installSub host name function)
      (installSub (host.watched limit) name function) :=
  fun hfits => .value rfl rfl (.refl _) hfits

/-- The watched host gives up where the block has no end or the limit is passed. -/
theorem runBegin (hsplices : host.Splices) (left : Nat) (body : Block) (span : Span) :
    Ends limit s (runBegin host left body span) (runBegin (host.watched limit) left body span) := by
  obtain ⟨buffer, scopes, h⟩ := s
  intro _
  cases hrun : host.runBegin left body span (buffer, h) with
  | value a q =>
      obtain ⟨buffer', h'⟩ := q
      have hgrows : buffer.Grows buffer' := .of_spliced (hsplices (Run.run?_eq_ok.2 hrun))
      by_cases hfits : Text.byteLength buffer'.chars ≤ limit
      · refine .value (a := ()) (t := ⟨buffer', scopes, h'⟩) ?_ ?_ hgrows hfits
        · simp only [Parser.runBegin, hrun]
          rfl
        · simp only [Parser.runBegin, State.watched, Host.watched, hrun, if_pos hfits]
          rfl
      · refine .gaveUp (p := ⟨buffer', scopes, (h', true)⟩) (e := default) ?_ rfl
        simp only [Parser.runBegin, State.watched, Host.watched, hrun, if_neg hfits]
        rfl
  | error e q =>
      refine .error (e := e) (t := ⟨q.1, scopes, q.2⟩) ?_ ?_
      · simp only [Parser.runBegin, hrun]
        rfl
      · simp only [Parser.runBegin, State.watched, Host.watched, hrun]
        rfl
  | cutOff =>
      refine .gaveUp (p := ⟨buffer, scopes, (h, true)⟩) (e := default) ?_ rfl
      simp only [Parser.runBegin, State.watched, Host.watched, hrun]
      rfl

end Ends

/-! ## The grammar -/

/-- A way to parse what may nest, beside a watched one: it takes tokens, and it ends where there is
room. -/
structure Descends (limit rounds : Nat) (K : Keeper host) (again : Again σ)
    (again' : Again (σ × Bool)) : Prop where
  parts : K.Parts again
  ends : ∀ {α : Type} (goal : Goal α) {s : State σ}, s.buffer.Room limit rounds →
    Ends limit s (again goal) (again' goal)

namespace Descends

variable {K : Keeper host} (h : Descends limit rounds K again again')

include h

/-- A loop of the grammar whose rounds end. -/
theorem loop (loop : Loop α β) (value : α)
    (hround : ∀ value t, s.buffer.Grows t.buffer →
      Ends limit t (loop.round host rounds again value)
        (loop.round (host.watched limit) rounds again' value))
    (hroom : s.buffer.Room limit rounds) :
    Ends limit s (Run.iterate rounds (loop.round host rounds again) value)
      (Run.iterate rounds (loop.round (host.watched limit) rounds again') value) :=
  have hloop := Keeper.Parts.loop h.parts loop
  .iterate hround (fun hrun => ((hloop _ _).value hrun).2 _ rfl) hroom value

/-! ### Lists and functions -/

theorem delimited {opening : TokenKind} (hopening : opening ≠ .endOfInput) (closing : TokenKind)
    (delimiter : Char) (hroom : s.buffer.Room limit (rounds + 1)) :
    Ends limit s (delimited rounds again opening closing delimiter)
      (delimited rounds again' opening closing delimiter) := by
  rw [delimited_eq, delimited_eq]
  refine .expected fun hkind => ?_
  have hroom : s.next.buffer.Room limit rounds := hroom.past (.next (hkind ▸ hopening))
  refine h.loop (.items closing delimiter s.buffer.next.1.span) []
    (fun items t ht => .look ?_) hroom
  by_cases hclosing : t.buffer.next.1.kind = closing
  · rw [if_pos hclosing, if_pos hclosing]
    exact .take (.pure _)
  · rw [if_neg hclosing, if_neg hclosing]
    by_cases hend : t.buffer.next.1.kind = .endOfInput
    · rw [if_pos hend, if_pos hend]
      exact (Ends.fail _ _).bind fun _ _ hrun _ => by cases hrun
    · rw [if_neg hend, if_neg hend]
      have hroom : t.lookAhead.buffer.Room limit rounds := (hroom.grow ht).grow (.lookAhead _)
      exact (h.ends .expr hroom).bind fun item u _ _ => .separated fun _ _ => .pure _

theorem parameters (hroom : s.buffer.Room limit (rounds + 1)) :
    Ends limit s (parameters rounds) (parameters rounds) := by
  rw [parameters_eq, parameters_eq]
  refine .expected fun hkind => ?_
  have hroom : s.next.buffer.Room limit rounds := hroom.past (.next (by simp [hkind]))
  refine h.loop (.names s.buffer.next.1.span) [] (fun names t _ => .look ?_) hroom
  cases t.buffer.next.1.kind with
  | parenClose => exact .take (.pure _)
  | endOfInput => exact .fail _ _
  | _ => exact Ends.name.bind fun name u _ _ => .separated fun _ _ => .pure _

theorem function (name : Option String) (kind : ScopeKind) (start : Span)
    (hroom : s.buffer.Room limit rounds) :
    Ends limit s (function rounds again name kind start)
      (function rounds again' name kind start) := by
  refine (h.parameters hroom.succ).bind fun params t _ ht => ?_
  refine Ends.bind (.inScope kind params fun _ => h.ends (.block .block) (hroom.grow ht)) ?_
  exact fun _ _ _ _ => .pure _

/-! ### Expressions -/

theorem primary (hroom : s.buffer.Room limit (rounds + 1)) :
    Ends limit s (primary host rounds again) (primary (host.watched limit) rounds again') := by
  have hnext (hkind : s.buffer.next.1.kind ≠ .endOfInput) :
      s.lookAhead.next.buffer.Room limit rounds := by
    rw [State.next_lookAhead]
    exact hroom.past (.next hkind)
  refine .look ?_
  cases literal? s.buffer.next.1 with
  | some e => exact .take (.pure _)
  | none =>
      cases hkind : s.buffer.next.1.kind with
      | ident name => exact (Ends.resolve name _).bind fun e t _ _ => .take (.pure _)
      | parenOpen =>
          refine .take ((h.ends .expr (hnext (by simp [hkind]))).bind fun e t _ _ => ?_)
          exact .expected fun _ => .pure _
      | bracketOpen =>
          have hroom : s.lookAhead.buffer.Room limit (rounds + 1) := hroom.grow (.lookAhead _)
          exact (h.delimited (by simp) _ _ hroom).bind fun found t _ _ => .pure _
      | kwFn =>
          refine .take ((h.function _ _ _ (hnext (by simp [hkind]))).bind fun f t _ _ => ?_)
          exact .pure _
      | _ => exact .fail _ _

theorem call (hroom : s.buffer.Room limit (rounds + 1)) :
    Ends limit s (call host rounds again) (call (host.watched limit) rounds again') := by
  rw [call_eq, call_eq]
  refine (h.primary hroom).bind fun callee t hrun _ => ?_
  have hroom := hroom.past ((Keeper.Parts.primary h.parts s).value hrun).2.takes.past
  refine h.loop .calls callee (fun callee u hu => .checked ?_) hroom
  cases u.buffer.next.1.kind == .parenOpen with
  | false => exact .pure _
  | true =>
      have hroom : u.lookAhead.buffer.Room limit rounds := (hroom.grow hu).grow (.lookAhead _)
      exact (h.delimited (by simp) _ _ hroom.succ).bind fun found t _ _ => .pure _

theorem unary (hroom : s.buffer.Room limit (rounds + 1)) :
    Ends limit s (unary host rounds again) (unary (host.watched limit) rounds again') := by
  have hoperator (op : UnaryOp) (hkind : s.buffer.next.1.kind ≠ .endOfInput) :
      Ends limit s.lookAhead
        (do
          let _ ← advance
          let operand ← again .unary
          return Expr.unary (s.buffer.next.1.span.merge operand.span) op operand)
        (do
          let _ ← advance
          let operand ← again' .unary
          return Expr.unary (s.buffer.next.1.span.merge operand.span) op operand) := by
    refine .take ?_
    rw [State.next_lookAhead]
    exact (h.ends .unary (hroom.past (.next hkind))).bind fun operand t _ _ => .pure _
  refine .look ?_
  dsimp only
  cases hkind : s.buffer.next.1.kind with
  | minus => exact hoperator .neg (by simp [hkind])
  | bang => exact hoperator .not (by simp [hkind])
  | _ => exact h.call (hroom.grow (.lookAhead _))

theorem joined (bound : Nat) (hroom : s.buffer.Room limit (rounds + 1)) :
    Ends limit s (joined host rounds again bound)
      (joined (host.watched limit) rounds again' bound) := by
  rw [joined_eq, joined_eq]
  refine (h.unary hroom).bind fun left t hrun _ => ?_
  have hroom := hroom.past ((Keeper.Parts.unary h.parts s).value hrun).2.takes.past
  refine h.loop (.operators bound) left (fun left u hu => .look ?_) hroom
  cases operator? u.buffer.next.1.kind with
  | none => exact .pure _
  | some op =>
      dsimp only
      split
      · exact .pure _
      · refine .take ((h.ends (.joined (looseness op)) ?_).bind fun right v _ _ => .pure _)
        exact (hroom.grow hu).grow (.of_lookAhead (.next _))

/-! ### Statements -/

theorem condition (hroom : s.buffer.Room limit (rounds + 1)) :
    Ends limit s (condition again) (condition again') := by
  refine .expected fun hkind => ?_
  have hroom : s.next.buffer.Room limit rounds := hroom.past (.next (by simp [hkind]))
  exact (h.ends .expr hroom).bind fun test t _ _ => .expected fun _ => .pure _

theorem letStmt (hroom : s.buffer.Room limit rounds) :
    Ends limit s (letStmt again) (letStmt again') := by
  refine .take (Ends.name.bind fun name t _ ht => .expected fun _ => ?_)
  have hroom : t.next.buffer.Room limit rounds := ((hroom.grow (.next _)).grow ht).grow (.next _)
  refine (h.ends .expr hroom).bind fun value u _ _ => Ends.terminator.bind fun _ v _ _ => ?_
  refine Ends.bind ?_ fun _ _ _ _ => .pure _
  exact fun hfits => .value rfl rfl (.refl _) hfits

theorem returned (keyword : Span) (hroom : s.buffer.Room limit rounds) :
    Ends limit s (returned again keyword) (returned again' keyword) := by
  have hroom : s.lookAhead.buffer.Room limit rounds := hroom.grow (.lookAhead _)
  have hbare {t : State σ} : Ends limit t
      (do
        expectTerminator
        return Stmt.ret keyword none)
      (do
        expectTerminator
        return Stmt.ret keyword none) :=
    Ends.terminator.bind fun _ _ _ _ => .pure _
  refine .look ?_
  cases s.buffer.next.1.kind with
  | semicolon => exact hbare
  | braceClose => exact hbare
  | endOfInput => exact hbare
  | _ =>
      exact (h.ends .expr hroom).bind fun value t _ _ =>
        Ends.terminator.bind fun _ _ _ _ => .pure _

theorem returnStmt (hroom : s.buffer.Room limit rounds) :
    Ends limit s (returnStmt again) (returnStmt again') := by
  refine .take ?_
  have hmay : Ends limit s.next mayReturn mayReturn :=
    fun hfits => .value rfl rfl (.refl _) hfits
  refine hmay.bind fun may t hrun ht => ?_
  cases may with
  | true => exact h.returned _ ((hroom.grow (.next _)).grow ht)
  | false => exact (Ends.fail _ _).bind fun _ _ hrun _ => by cases hrun

theorem conditional (hroom : s.buffer.Room limit (rounds + 1)) :
    Ends limit s (conditional again) (conditional again') := by
  have hroom : s.next.buffer.Room limit (rounds + 1) := hroom.grow (.next _)
  refine .take ((h.condition hroom).bind fun test t hrun _ => ?_)
  -- the condition has taken the parenthesis at least
  obtain ⟨hopen, c, htest, hgrows⟩ := ((Keeper.Parts.condition h.parts s.next).value hrun).2
  have hroom : t.buffer.Room limit rounds :=
    hroom.past ⟨htest.takes.past.toGrows.trans hgrows, by rw [hopen]; simp⟩
  refine (h.ends (.block .block) hroom).bind fun yes u _ hu => ?_
  have hroom := hroom.grow hu
  refine .eaten (fun _ => .checked ?_) (.pure _)
  have hroom : u.next.lookAhead.buffer.Room limit rounds :=
    (hroom.grow (.next _)).grow (.lookAhead _)
  cases u.next.buffer.next.1.kind == .kwIf with
  | true =>
      refine Ends.bind (.inScope .block [] fun _ => h.ends .conditional hroom) ?_
      exact fun nested _ _ _ => .pure _
  | false => exact (h.ends (.block .block) hroom).bind fun no _ _ _ => .pure _

theorem whileStmt (hroom : s.buffer.Room limit rounds) :
    Ends limit s (whileStmt again) (whileStmt again') := by
  have hroom : s.next.buffer.Room limit rounds := hroom.grow (.next _)
  refine .take ((h.condition hroom.succ).bind fun test t _ ht => ?_)
  exact (h.ends (.block .block) (hroom.grow ht)).bind fun body _ _ _ => .pure _

theorem exprStmt (hroom : s.buffer.Room limit rounds) :
    Ends limit s (exprStmt again) (exprStmt again') := by
  refine (h.ends .expr hroom).bind fun target t _ ht => .eaten (fun _ => ?_) ?_
  · refine (h.ends .expr ((hroom.grow ht).grow (.next _))).bind fun value u _ _ => ?_
    cases target with
    | lexical _ ref => exact Ends.terminator.bind fun _ _ _ _ => .pure _
    | global _ cell => exact Ends.terminator.bind fun _ _ _ _ => .pure _
    | _ => exact .fail _ _
  · exact Ends.terminator.bind fun _ _ _ _ => .pure _

theorem beginStmt (hroom : s.buffer.Room limit rounds) :
    Ends limit s (beginStmt host rounds again)
      (beginStmt (host.watched limit) rounds again') := by
  refine .take ((h.ends (.block .beginBlock) (hroom.grow (.next _))).bind fun body t _ _ => ?_)
  exact .runBegin K.splices rounds body _

theorem subStmt (hroom : s.buffer.Room limit rounds) :
    Ends limit s (subStmt host rounds again) (subStmt (host.watched limit) rounds again') := by
  refine .take (Ends.ident.bind fun found t _ ht => ?_)
  refine (h.function _ .sub _ ((hroom.grow (.next _)).grow ht)).bind fun f u _ _ => ?_
  exact .installSub found.1 f

theorem statement (hroom : s.buffer.Room limit rounds) :
    Ends limit s (statement host rounds again)
      (statement (host.watched limit) rounds again') := by
  have hroom : s.lookAhead.buffer.Room limit rounds := hroom.grow (.lookAhead _)
  have hsome {body : Parse σ Stmt} {body' : Parse (σ × Bool) Stmt}
      (hbody : Ends limit s.lookAhead body body') :
      Ends limit s.lookAhead (some <$> body) (some <$> body') := by
    rw [map_eq_pure_bind, map_eq_pure_bind]
    exact hbody.bind fun _ _ _ _ => .pure _
  refine .look ?_
  cases s.buffer.next.1.kind with
  | semicolon => exact .take (.pure _)
  | kwBegin => exact (h.beginStmt hroom).bind fun _ _ _ _ => .pure _
  | kwSub => exact (h.subStmt hroom).bind fun _ _ _ _ => .pure _
  | kwLet => exact hsome (h.letStmt hroom)
  | kwReturn => exact hsome (h.returnStmt hroom)
  | kwIf => exact hsome (h.conditional hroom.succ)
  | kwWhile => exact hsome (h.whileStmt hroom)
  | braceOpen =>
      have hblock := h.ends (.block .block) hroom
      dsimp only
      rw [map_eq_pure_bind, map_eq_pure_bind]
      exact hblock.bind fun _ _ _ _ => .pure _
  | _ => exact hsome (h.exprStmt hroom)

/-! ### Blocks -/

theorem statements (level : Level) (hroom : s.buffer.Room limit rounds) :
    Ends limit s (Run.iterate rounds (round host rounds again level) [])
      (Run.iterate rounds (round (host.watched limit) rounds again' level) []) := by
  refine h.loop (.statements level) [] (fun stmts t ht => ?_) hroom
  have hroom : t.lookAhead.buffer.Room limit rounds := (hroom.grow ht).grow (.lookAhead _)
  have honeMore : Ends limit t.lookAhead
      (do
        let stmt ← Parser.statement host rounds again
        return Run.Step.next (stmt.toList ++ stmts))
      (do
        let stmt ← Parser.statement (host.watched limit) rounds again'
        return (Run.Step.next (stmt.toList ++ stmts) : Run.Step (List Stmt) Block)) :=
    (h.statement hroom).bind fun _ _ _ _ => .pure _
  cases level with
  | unit =>
      refine .look ?_
      cases t.buffer.next.1.kind with
      | endOfInput => exact .pure _
      | braceClose => exact .fail _ _
      | _ => exact honeMore
  | braced openSpan =>
      refine .look ?_
      cases t.buffer.next.1.kind with
      | braceClose => exact .take (.pure _)
      | endOfInput => exact .fail _ _
      | _ => exact honeMore

theorem block (kind : ScopeKind) (hroom : s.buffer.Room limit (rounds + 1)) :
    Ends limit s (block host rounds again kind)
      (block (host.watched limit) rounds again' kind) := by
  rw [block_eq, block_eq]
  refine .expected fun hopen => .inScope kind [] fun scopes => h.statements _ ?_
  exact hroom.past (.next (by simp [hopen]))

theorem unit (hroom : s.buffer.Room limit rounds) :
    Ends limit s (unit host rounds again) (unit (host.watched limit) rounds again') := by
  rw [unit_eq, unit_eq]
  exact .inScope .unit [] fun scopes => h.statements .unit hroom

end Descends

/-! ## Whole parses -/

theorem descends (K : Keeper host) (limit bound : Nat) :
    Descends limit bound K (run host bound) (run (host.watched limit) bound) := by
  induction bound with
  | zero =>
      refine ⟨K.parts 0, fun goal s hroom hfits => ?_⟩
      have hcursor := s.buffer.cursor_le_byteLength
      unfold Room at hroom
      omega
  | succ bound ih =>
      refine ⟨K.parts (bound + 1), fun goal s hroom => ?_⟩
      rw [run_succ, run_succ]
      cases goal with
      | expr => exact ih.joined 6 hroom
      | joined limit => exact ih.joined limit hroom
      | unary => exact ih.unary hroom
      | block kind => exact ih.block kind hroom
      | conditional => exact ih.conditional hroom

/-- Every parse ends, however the text it starts with is malformed: if the bound exceeds some limit
on the length of the text, and no `begin` block has no end or makes the text longer than that.  Each
round of a loop that goes on has taken at least one token, and so has everything that may nest if it
did not fail.  The token is not empty. -/
theorem runUnit_ends (hsplices : host.Splices) :
    (∀ {bound limit : Nat} {source : String} {h : σ},
      Text.byteLength source.toList ≤ limit → limit < bound →
      (∀ e p, runUnit (host.watched limit) bound (.start source (h, false)) = .error e p →
        p.host.2 = false) →
      ∃ result p, (runUnit host bound).run? (.start source h) = some (result, p)) ∧
    (∀ (rounds bound : Nat) {α β : Type} (loop : Loop α β) {value more : α} {s t : State σ},
      loop.round host rounds (run host bound) value s = .value (.next more) t →
      s.buffer.Past t.buffer ∧ s.buffer.next.1.span.start < s.buffer.next.1.span.stop) ∧
    ∀ (bound : Nat) {α : Type} (goal : Goal α) {a : α} {s t : State σ},
      run host bound goal s = .value a t →
      s.buffer.Past t.buffer ∧ s.buffer.next.1.span.start < s.buffer.next.1.span.stop := by
  have hparts := (Keeper.idle hsplices).parts
  refine ⟨fun {bound limit source h} hsource hbound hbegins => ?_,
    fun rounds bound {α β} loop value more s t hrun => ?_, fun bound {α} goal a s t hrun => ?_⟩
  · have hroom : (State.start source h).buffer.Room limit bound :=
      Nat.lt_of_lt_of_le hbound (Nat.le_add_right _ _)
    cases (descends (Keeper.idle hsplices) limit bound).unit hroom hsource with
    | gaveUp hend hgaveUp =>
        have hnot := (hbegins _ _ hend).symm.trans hgaveUp
        cases hnot
    | value hend => exact ⟨_, _, Run.run?_eq_ok.2 hend⟩
    | error hend => exact ⟨_, _, Run.run?_eq_error.2 hend⟩
  · have hpast := ((Keeper.Parts.loop (hparts bound) loop value s).value hrun).2 more rfl
    exact ⟨hpast, s.buffer.next_proper hpast.token⟩
  · have hpast := Goal.Taken.past ((hparts bound goal s).value hrun).2
    exact ⟨hpast, s.buffer.next_proper hpast.token⟩

/-- With the call and the block that are spliced in behind it, the text has 107 bytes. -/
theorem runUnit_ends_deferral :
    (∀ e p, runUnit ((Interpreter.host 30 (Interpreter.run 30)).watched 107) 108
        (.start "begin { at_runtime(fn() { }); } let x = ( 1 ); f(-x);"
          ((Session.start .default).enterUnit "main" .main none "", false)) = .error e p →
        p.host.2 = false) ∧
      ∃ result p, (runUnit (Interpreter.host 30 (Interpreter.run 30)) 108).run?
        (.start "begin { at_runtime(fn() { }); } let x = ( 1 ); f(-x);"
          ((Session.start .default).enterUnit "main" .main none "")) = some (result, p) := by
  have htest : (runUnit ((Interpreter.host 30 (Interpreter.run 30)).watched 107) 108
      (.start "begin { at_runtime(fn() { }); } let x = ( 1 ); f(-x);"
        ((Session.start .default).enterUnit "main" .main none "", false))).valueWith
        (fun _ p => p.host.2 = false) = true := by
    decide +kernel
  obtain ⟨tree, q, hrun, _⟩ := Run.Outcome.exists_value htest
  have hbegins : ∀ e p, runUnit ((Interpreter.host 30 (Interpreter.run 30)).watched 107) 108
      (.start "begin { at_runtime(fn() { }); } let x = ( 1 ); f(-x);"
        ((Session.start .default).enterUnit "main" .main none "", false)) = .error e p →
      p.host.2 = false := by
    intro e p hend
    cases hrun.symm.trans hend
  exact ⟨hbegins, (runUnit_ends (Interpreter.host_splices 30 30)).1 (by decide) (by decide) hbegins⟩

end Parser

end TwoPhase
