import TwoPhase.Parser.Grammar
import TwoPhase.Proofs.Agreement
import TwoPhase.Proofs.Sound.Tree

/-!
# Parses give sound code

Whatever the parser hands on is sound for the text consumed so far and the lexical scopes around the
cursor: trees, subs as they are installed, and `begin` blocks as they run.  The spans of an error
fit the whole text, since an error may point at a token that was only looked at.

The parser knows its host by what the host does, so a host is described by a `Conduct`: an invariant
of buffer and host that its operations keep, given sound code.  Two hosts are described at once,
which may differ in what they make of `begin` blocks that are not sound.
-/

namespace TwoPhase.Parser

open Run (Agrees)

variable {σ α β : Type}

/-- What two hosts do alike, and what comes of it. -/
structure Conduct (host host' : Host σ) where
  /-- What holds of buffer and host at every point. -/
  Inv : Buffer → σ → Prop
  /-- What may become of buffer and host. -/
  Leads : Buffer → σ → Buffer → σ → Prop
  /-- What is known of an error, and of buffer and host when it is raised. -/
  Fails : CompileError → Buffer → σ → Prop
  inv : ∀ {b s c t}, Leads b s c t → Inv c t
  refl : ∀ {b s}, Inv b s → Leads b s b s
  trans : ∀ {b s c t d u}, Leads b s c t → Leads c t d u → Leads b s d u
  behind : ∀ {b s c t}, Leads b s c t → b.behind <+: c.behind
  looks : ∀ {b s}, Inv b s → Leads b s b.lookAhead s
  advances : ∀ {b s}, Inv b s → Leads b s b.next.2 s
  sameGlobals : host'.resolveGlobal = host.resolveGlobal
  resolves : ∀ {b s} (name : String), Inv b s → Leads b s b (host.resolveGlobal name s).2
  sameSubs : host'.installSub = host.installSub
  installs : ∀ {b s} (name : String) {function scopes}, Inv b s →
    function.Sound b.behind .sub scopes → Leads b s b (host.installSub name function s)
  begins : ∀ {b s} (left : Nat) {body span scopes}, Inv b s →
    body.Sound b.behind .beginBlock scopes → span.Fits b.behind →
    Agrees (fun p q => Leads p.1 p.2 q.1 q.2) (fun e q => Fails e q.1 q.2) (b, s)
      (host.runBegin left body span) (host'.runBegin left body span) fun _ _ => True
  fails : ∀ {b s fault span}, Inv b s → span.Fits b.chars →
    (∀ opened ∈ fault.openedAt?, opened.Fits b.chars) → Fails (.parse ⟨fault, span⟩ none) b s

/-- What a part of the grammar is parsed to. -/
def Goal.Sound (text : List Char) (scopes : List LexicalScope) :
    {α : Type} → Goal α → α → Prop
  | _, .expr, e => e.Sound text scopes
  | _, .joined _, e => e.Sound text scopes
  | _, .unary, e => e.Sound text scopes
  | _, .block kind, body => body.Sound text kind scopes
  | _, .conditional, stmt => stmt.Sound text scopes ∧ stmt.scopesBehind scopes = scopes

/-- A statement that is a block is put together behind the block. -/
theorem blockStmt_eq (again : Again σ) :
    ((some ∘ Stmt.block) <$> again (.block .block) : Parse σ (Option Stmt))
      = some <$> (again (.block .block) >>= fun body => pure (.block body)) := by
  rw [bind_pure_comp, Functor.map_map]
  rfl

/-- A name refers to a declaration of that name. -/
theorem lexical?_name {name : String} {scopes : List LexicalScope} {ref : LexicalRef}
    (h : lexical? name scopes = some ref) : ref.name = name := by
  induction scopes generalizing ref with
  | nil => cases h
  | cons scope outer ih =>
      obtain ⟨index, _, rfl⟩ | ⟨_, _, far, hfar, rfl⟩ := lexical?_cons h
      · rfl
      · change far.name = name
        exact ih hfar

/-- A token that is an expression by itself gives a sound one. -/
theorem literal_sound {token : Token} {e : Expr} (h : literal? token = some e)
    {text : List Char} {scopes : List LexicalScope} (hspan : token.span.Fits text) :
    e.Sound text scopes := by
  obtain ⟨kind, span⟩ := token
  cases kind with
  | int value =>
      cases h
      exact .int hspan
  | str value =>
      cases h
      exact .str hspan
  | kwTrue =>
      cases h
      exact .bool hspan
  | kwFalse =>
      cases h
      exact .bool hspan
  | kwNil =>
      cases h
      exact .nil hspan
  | _ => cases h

namespace Conduct

variable {host host' : Host σ} (C : Conduct host host') {p q : State σ}

/-- What a parse of statements does: it may declare names in the innermost scope. -/
structure Moves (p q : State σ) : Prop where
  leads : C.Leads p.buffer p.host q.buffer q.host
  tail : q.scopes.tail = p.scopes.tail

/-- What a parse does that leaves the scopes as they are. -/
structure Stays (p q : State σ) : Prop extends Moves C p q where
  scopes : q.scopes = p.scopes

/-- What is known of an error and the state of the parser. -/
def Failing (e : CompileError) (p : State σ) : Prop := C.Fails e p.buffer p.host

instance : Trans C.Moves C.Moves C.Moves where
  trans h h' := ⟨C.trans h.leads h'.leads, h'.tail.trans h.tail⟩

instance : Trans C.Stays C.Stays C.Stays where
  trans h h' := ⟨⟨C.trans h.leads h'.leads, h'.tail.trans h.tail⟩, h'.scopes.trans h.scopes⟩

variable {C}

/-! ## What was parsed stays sound -/

theorem Moves.inv (h : C.Moves p q) : C.Inv q.buffer q.host := C.inv h.leads

theorem Moves.behind (h : C.Moves p q) : p.buffer.behind <+: q.buffer.behind := C.behind h.leads

theorem Moves.fits (h : C.Moves p q) {span : Span} (hspan : span.Fits p.buffer.behind) :
    span.Fits q.buffer.behind :=
  hspan.mono h.behind

theorem Stays.refl (hp : C.Inv p.buffer p.host) : C.Stays p p := ⟨⟨C.refl hp, rfl⟩, rfl⟩

namespace Stays

variable (h : C.Stays p q)

include h

theorem expr {e : Expr} (he : e.Sound p.buffer.behind p.scopes) :
    e.Sound q.buffer.behind q.scopes :=
  h.scopes ▸ he.mono h.behind

theorem exprs {es : List Expr} (hes : ∀ e ∈ es, e.Sound p.buffer.behind p.scopes) :
    ∀ e ∈ es, e.Sound q.buffer.behind q.scopes :=
  fun e he => h.expr (hes e he)

theorem block {kind : ScopeKind} {body : Block}
    (hbody : body.Sound p.buffer.behind kind p.scopes) :
    body.Sound q.buffer.behind kind q.scopes :=
  h.scopes ▸ hbody.mono h.behind

end Stays

/-- Two parses that agree, from a state with the invariant. -/
abbrev Parses (C : Conduct host host') (p : State σ) (body body' : Parse σ α)
    (Q : α → State σ → Prop) : Prop :=
  Agrees C.Stays C.Failing p body body' Q

theorem moves {body body' : Parse σ α} {Q : α → State σ → Prop} (h : C.Parses p body body' Q) :
    Agrees C.Moves C.Failing p body body' fun a q => C.Stays p q ∧ Q a q :=
  h.weaken (fun _ h => h.toMoves) (fun _ _ h ha => ⟨h, ha⟩) (fun _ _ _ h => h)

variable (hp : C.Inv p.buffer p.host) {token : Token} {Q : α → State σ → Prop}

section

include hp

/-! ## Errors -/

theorem fail {fault : ParseFault} {span : Span} (hspan : span.Fits p.buffer.chars)
    (hopened : ∀ opened ∈ fault.openedAt?, opened.Fits p.buffer.chars) :
    C.Parses p (fail fault span) (Parser.fail fault span) Q :=
  .throw (.refl hp) (C.fails hp hspan hopened)

/-- An error at the next token. -/
theorem misplaced (htoken : p.buffer.found.token = token) {fault : String → ParseFault}
    (hfault : ∀ found, (fault found).openedAt? = none) :
    C.Parses p (Parser.fail (misplaced token fault) token.span)
      (Parser.fail (Parser.misplaced token fault) token.span) Q := by
  refine fail hp (htoken ▸ p.buffer.found_fits) fun opened hopened => ?_
  unfold Parser.misplaced at hopened
  split at hopened
  · cases hopened
  · rw [hfault] at hopened
    cases hopened

theorem unexpected (htoken : p.buffer.found.token = token) (what : String) :
    C.Parses p (unexpected what token) (Parser.unexpected what token) Q :=
  misplaced hp htoken fun _ => rfl

/-! ## Tokens -/

theorem peek : C.Parses p peek Parser.peek fun token q =>
    q.buffer.found.token = token ∧ p.buffer.found.token = token := by
  obtain ⟨buffer, scopes, s⟩ := p
  refine .modifyGet ⟨⟨?_, rfl⟩, rfl⟩ ?_
  · change C.Leads buffer s buffer.peek.2 s
    unfold Buffer.peek
    split
    · exact C.refl hp
    · exact C.looks hp
  · change buffer.peek.2.found.token = buffer.peek.1 ∧ buffer.found.token = buffer.peek.1
    unfold Buffer.peek
    split
    · rename_i found hpeeked
      simp [Buffer.found, hpeeked]
    · exact ⟨rfl, congrArg (·.token) buffer.found_eq⟩

/-- A parse that looks at the next token first. -/
theorem look {next next' : Token → Parse σ α}
    (hnext : ∀ token q, C.Stays p q → q.buffer.found.token = token →
      C.Parses q (next token) (next' token) Q) :
    C.Parses p (Parser.peek >>= next) (Parser.peek >>= next') Q :=
  (peek hp).bind fun token q hq htoken => hnext token q hq htoken.1

theorem advance : C.Parses p advance Parser.advance fun _ q =>
    p.buffer.found.token.span.Fits q.buffer.behind :=
  .modifyGet ⟨⟨C.advances hp, rfl⟩, rfl⟩ p.buffer.next_fits

/-- A parse that consumes a token it has looked at first. -/
theorem take (htoken : p.buffer.found.token = token) {next next' : Token → Parse σ α}
    (hnext : ∀ t q, C.Stays p q → token.span.Fits q.buffer.behind →
      C.Parses q (next t) (next' t) Q) :
    C.Parses p (Parser.advance >>= next) (Parser.advance >>= next') Q :=
  (advance hp).bind fun t q hq hspan => hnext t q hq (htoken ▸ hspan)

/-- A keyword that is consumed at once. -/
theorem keyword : C.Parses p Parser.advance Parser.advance
    fun token q => token.span.Fits q.buffer.behind :=
  .modifyGet ⟨⟨C.advances hp, rfl⟩, rfl⟩ p.buffer.next_fits

theorem check (kind : TokenKind) : C.Parses p (check kind) (Parser.check kind) fun _ _ => True :=
  look hp fun _ _ hq _ => .pure (.refl hq.inv) trivial

theorem eat (kind : TokenKind) : C.Parses p (eat kind) (Parser.eat kind) fun _ _ => True := by
  refine (check hp kind).bind fun found q hq _ => ?_
  cases found with
  | false => exact .pure (.refl hq.inv) trivial
  | true => exact (advance hq.inv).bind fun _ r hr _ => .pure (.refl hr.inv) trivial

theorem expect (kind : TokenKind) : C.Parses p (expect kind) (Parser.expect kind)
    fun token q => token.span.Fits q.buffer.behind ∧
      p.buffer.found.token.span.Fits q.buffer.behind := by
  refine (peek hp).bind fun token q hq htoken => ?_
  obtain ⟨htoken, hfound⟩ := htoken
  split
  · refine .modifyGet ⟨⟨C.advances hq.inv, rfl⟩, rfl⟩ ⟨q.buffer.next_fits, ?_⟩
    rw [hfound, ← htoken]
    exact q.buffer.next_fits
  · exact unexpected hq.inv htoken _

theorem expectIdent : C.Parses p expectIdent Parser.expectIdent
    fun found q => found.2.Fits q.buffer.behind := by
  refine look hp fun token q hq htoken => ?_
  split
  · exact take hq.inv htoken fun _ r hr hspan => .pure (.refl hr.inv) hspan
  · exact misplaced hq.inv htoken fun _ => rfl

theorem expectLexicalName :
    C.Parses p expectLexicalName Parser.expectLexicalName fun _ _ => True := by
  refine (expectIdent hp).bind fun found q hq hspan => ?_
  obtain ⟨name, span⟩ := found
  dsimp only
  split
  · exact fail hq.inv (hspan.mono q.buffer.behind_le) fun _ h => by cases h
  · exact .pure (.refl hq.inv) trivial

theorem expectTerminator :
    C.Parses p expectTerminator Parser.expectTerminator fun _ _ => True := by
  refine (eat hp .semicolon).bind fun eaten q hq _ => ?_
  cases eaten with
  | true => exact .pure (.refl hq.inv) trivial
  | false =>
      refine look hq.inv fun token r hr htoken => ?_
      split
      · exact .pure (.refl hr.inv) trivial
      · exact .pure (.refl hr.inv) trivial
      · exact unexpected hr.inv htoken _

/-- A comma, unless the list ends. -/
theorem separator {kind : TokenKind} {next next' : Parse σ α}
    (hnext : ∀ q, C.Stays p q → C.Parses q next next' Q) :
    C.Parses p
      (do
        if !(← Parser.check kind) then let _ ← Parser.expect .comma
        next)
      (do
        if !(← Parser.check kind) then let _ ← Parser.expect .comma
        next') Q := by
  refine (check hp kind).bind fun found q hq _ => ?_
  cases found with
  | true => exact hnext q hq
  | false => exact (expect hq.inv .comma).bind fun _ r hr _ => hnext r (Trans.trans hq hr)

/-! ## Scopes -/

/-- A parse inside a new scope may declare names there. -/
theorem inScope (kind : ScopeKind) (names : List String) {body body' : Parse σ α}
    (hbody : ∀ q, C.Inv q.buffer q.host → q.scopes = .declaring kind names :: p.scopes →
      p.buffer = q.buffer →
      Agrees C.Moves C.Failing q body body' fun a r => Q a { r with scopes := r.scopes.tail }) :
    C.Parses p (inScope kind names body) (Parser.inScope kind names body') Q := by
  let entered : State σ := { p with scopes := .declaring kind names :: p.scopes }
  have hstays : ∀ r : State σ, C.Moves entered r → C.Stays p { r with scopes := r.scopes.tail } :=
    fun r hr => ⟨⟨hr.leads, congrArg List.tail hr.tail⟩, hr.tail⟩
  exact (hbody entered hp rfl rfl).between rfl (fun _ r hr ha => ⟨hstays r hr, ha⟩)
    fun _ r hr he => ⟨hstays r hr, he⟩

end

/-! ## Parts -/

variable {rounds : Nat} {again again' : Again σ}

/-- Ways to parse what may nest that agree, and give sound parts. -/
def Parts (C : Conduct host host') (again again' : Again σ) : Prop :=
  ∀ {α : Type} (goal : Goal α) (p : State σ), C.Inv p.buffer p.host →
    C.Parses p (again goal) (again' goal) fun a q => goal.Sound q.buffer.behind q.scopes a

namespace Parts

variable (h : C.Parts again again') (hp : C.Inv p.buffer p.host)

include h hp

theorem expr : C.Parses p (again .expr) (again' .expr)
    fun e q => e.Sound q.buffer.behind q.scopes :=
  h .expr p hp

theorem innerBlock (kind : ScopeKind) : C.Parses p (again (.block kind)) (again' (.block kind))
    fun body q => body.Sound q.buffer.behind kind q.scopes :=
  h (.block kind) p hp

/-! ### Lists and functions -/

theorem delimited (opening closing : TokenKind) (delimiter : Char) :
    C.Parses p (delimited rounds again opening closing delimiter)
      (Parser.delimited rounds again' opening closing delimiter) fun result q =>
        (∀ item ∈ result.1, item.Sound q.buffer.behind q.scopes) ∧
          p.buffer.found.token.span.Fits q.buffer.behind ∧ result.2.Fits q.buffer.behind := by
  refine (expect hp opening).bind fun openToken q hq hopen => ?_
  refine .iterate (J := fun items r => C.Inv r.buffer r.host ∧
    openToken.span.Fits r.buffer.behind ∧ p.buffer.found.token.span.Fits r.buffer.behind ∧
    ∀ item ∈ items, item.Sound r.buffer.behind r.scopes)
    (fun items r hr => ?_) rounds [] ⟨hq.inv, hopen.1, hopen.2, by simp⟩
  obtain ⟨hinv, hopen, hfound, hitems⟩ := hr
  refine look hinv fun token t ht htoken => ?_
  have hopen := ht.fits hopen
  have hfound := ht.fits hfound
  have hitems := ht.exprs hitems
  split
  · refine take ht.inv htoken fun _ u hu hspan => .pure (.refl hu.inv) ⟨?_, hu.fits hfound, hspan⟩
    exact fun item hitem => hu.exprs hitems item (List.mem_reverse.1 hitem)
  · split
    · refine (fail (Q := fun _ _ => False) ht.inv (htoken ▸ t.buffer.found_fits)
        fun opened hopened => ?_).bind fun _ _ _ hfalse => hfalse.elim
      cases hopened
      exact hopen.mono t.buffer.behind_le
    · refine (h.expr ht.inv).bind fun item u hu hitem => separator hu.inv fun v hv => ?_
      have htv : C.Stays t v := Trans.trans hu hv
      refine .pure (.refl hv.inv) ⟨hv.inv, htv.fits hopen, htv.fits hfound, ?_⟩
      rintro other (_ | ⟨_, hother⟩)
      · exact hv.expr hitem
      · exact hv.expr (hu.expr (hitems other hother))

omit h in
theorem parameters : C.Parses p (parameters rounds) (Parser.parameters rounds)
    fun _ _ => True := by
  refine (expect hp .parenOpen).bind fun openToken q hq hopen => ?_
  refine .iterate (J := fun _ r => C.Inv r.buffer r.host ∧ openToken.span.Fits r.buffer.behind)
    (fun names r hr => ?_) rounds [] ⟨hq.inv, hopen.1⟩
  obtain ⟨hinv, hopen⟩ := hr
  refine look hinv fun token t ht htoken => ?_
  have hopen := ht.fits hopen
  split
  · exact take ht.inv htoken fun _ u hu _ => .pure (.refl hu.inv) trivial
  · refine fail ht.inv (htoken ▸ t.buffer.found_fits) fun opened hopened => ?_
    cases hopened
    exact hopen.mono t.buffer.behind_le
  · refine (expectLexicalName ht.inv).bind fun name u hu _ => separator hu.inv fun v hv => ?_
    exact .pure (.refl hv.inv) ⟨hv.inv, (Trans.trans hu hv : C.Stays t v).fits hopen⟩

/-- A part in a scope of its own. -/
theorem inside {γ : Type} (goal : Goal γ) (kind : ScopeKind) (names : List String) :
    C.Parses p (Parser.inScope kind names (again goal)) (Parser.inScope kind names (again' goal))
      fun a q => goal.Sound q.buffer.behind (.declaring kind names :: q.scopes) a := by
  refine inScope hp kind names fun q hq hscopes _ => ?_
  refine (h goal q hq).weaken (fun _ hr => hr.toMoves) (fun a r hr ha => ?_) fun _ _ _ he => he
  have hentered := hr.scopes.trans hscopes
  change goal.Sound r.buffer.behind (.declaring kind names :: r.scopes.tail) a
  rw [hentered, List.tail_cons]
  rwa [hentered] at ha

theorem function (name : Option String) (kind : ScopeKind) {start : Span}
    (hstart : start.Fits p.buffer.behind) :
    C.Parses p (function rounds again name kind start)
      (Parser.function rounds again' name kind start)
      fun f q => f.Sound q.buffer.behind kind q.scopes := by
  refine (parameters hp).bind fun params q hq _ => ?_
  refine (h.inside hq.inv (.block .block) kind params).bind fun body r hr hbody => ?_
  have hbody : body.Sound r.buffer.behind .block (.declaring kind params :: r.scopes) := hbody
  exact .pure (.refl hr.inv) (.mk ((hr.fits (hq.fits hstart)).merge hbody.span) hbody)

/-! ### Expressions -/

omit h in
theorem resolve (name : String) (span : Span) :
    C.Parses p (resolve host name span) (Parser.resolve host' name span) fun e q =>
      q.buffer = p.buffer ∧ ∀ text, span.Fits text → e.Sound text q.scopes := by
  have hsame : Parser.resolve host' name span = Parser.resolve host name span := by
    unfold Parser.resolve
    rw [C.sameGlobals]
  rw [hsame]
  obtain ⟨buffer, scopes, s⟩ := p
  unfold Parser.resolve
  refine .modifyGet ?_ ?_
  · dsimp only
    split
    · exact .refl hp
    · exact ⟨⟨C.resolves name hp, rfl⟩, rfl⟩
  · dsimp only
    split
    · rename_i ref href
      exact ⟨rfl, fun text htext => .lexical htext (lexical?_name href ▸ href)⟩
    · exact ⟨rfl, fun text htext => .global htext⟩

theorem primary : C.Parses p (primary host rounds again) (Parser.primary host' rounds again')
    fun e q => e.Sound q.buffer.behind q.scopes := by
  refine look hp fun token q hq htoken => ?_
  cases hliteral : literal? token with
  | some e =>
      refine take hq.inv htoken fun _ r hr hspan => .pure (.refl hr.inv) ?_
      exact literal_sound hliteral hspan
  | none =>
      dsimp only
      split
      · refine (resolve hq.inv _ _).bind fun e r hr he => ?_
        obtain ⟨hbuffer, he⟩ := he
        refine take hr.inv (hbuffer ▸ htoken) fun _ t ht hspan => .pure (.refl ht.inv) ?_
        exact ht.scopes ▸ he _ hspan
      · refine take hq.inv htoken fun _ r hr hopen => (h.expr hr.inv).bind fun e t ht he => ?_
        refine (expect ht.inv .parenClose).bind fun close u hu hclose => .pure (.refl hu.inv) ?_
        exact (hu.expr he).withSpan ((hu.fits (ht.fits hopen)).merge hclose.1)
      · refine (h.delimited hq.inv _ _ _).bind fun result r hr hresult => .pure (.refl hr.inv) ?_
        obtain ⟨hitems, hopen, hclose⟩ := hresult
        exact .list ((htoken ▸ hopen).merge hclose) hitems
      · refine take hq.inv htoken fun _ r hr hspan => ?_
        refine (h.function hr.inv none .closure hspan).bind fun f t ht hf => ?_
        exact .pure (.refl ht.inv) (.closure hf.span hf)
      · exact misplaced hq.inv htoken fun _ => rfl

theorem call : C.Parses p (call host rounds again) (Parser.call host' rounds again')
    fun e q => e.Sound q.buffer.behind q.scopes := by
  refine (h.primary hp).bind fun callee q hq hcallee => ?_
  refine .iterate (J := fun callee r => C.Inv r.buffer r.host ∧
    callee.Sound r.buffer.behind r.scopes) (fun callee r hr => ?_) rounds callee ⟨hq.inv, hcallee⟩
  obtain ⟨hinv, hcallee⟩ := hr
  refine (check hinv .parenOpen).bind fun found t ht _ => ?_
  cases found with
  | false => exact .pure (.refl ht.inv) (ht.expr hcallee)
  | true =>
      refine (h.delimited ht.inv _ _ _).bind fun result u hu hresult => .pure (.refl hu.inv) ?_
      obtain ⟨hargs, _, hclose⟩ := hresult
      have hcallee := hu.expr (ht.expr hcallee)
      exact ⟨hu.inv, .call (hcallee.span.merge hclose) hcallee hargs⟩

theorem unary : C.Parses p (unary host rounds again) (Parser.unary host' rounds again')
    fun e q => e.Sound q.buffer.behind q.scopes := by
  have hoperator : ∀ (op : UnaryOp) {token : Token} {q : State σ}, C.Inv q.buffer q.host →
      q.buffer.found.token = token → C.Parses q
        (do
          let _ ← Parser.advance
          let operand ← again .unary
          return .unary (token.span.merge operand.span) op operand : Parse σ Expr)
        (do
          let _ ← Parser.advance
          let operand ← again' .unary
          return .unary (token.span.merge operand.span) op operand : Parse σ Expr)
        fun e q => e.Sound q.buffer.behind q.scopes := by
    intro op token q hq htoken
    refine take hq htoken fun _ r hr hspan => ?_
    refine (h .unary r hr.inv).bind fun operand t ht hoperand => ?_
    have hoperand : operand.Sound t.buffer.behind t.scopes := hoperand
    exact .pure (.refl ht.inv) (.unary ((ht.fits hspan).merge hoperand.span) hoperand)
  refine look hp fun token q hq htoken => ?_
  dsimp only
  split
  · exact hoperator .neg hq.inv htoken
  · exact hoperator .not hq.inv htoken
  · exact h.call hq.inv

theorem joined (limit : Nat) :
    C.Parses p (joined host rounds again limit) (Parser.joined host' rounds again' limit)
      fun e q => e.Sound q.buffer.behind q.scopes := by
  refine (h.unary hp).bind fun left q hq hleft => ?_
  refine .iterate (J := fun left r => C.Inv r.buffer r.host ∧
    left.Sound r.buffer.behind r.scopes) (fun left r hr => ?_) rounds left ⟨hq.inv, hleft⟩
  obtain ⟨hinv, hleft⟩ := hr
  refine look hinv fun token t ht htoken => ?_
  have hleft := ht.expr hleft
  split
  · exact .pure (.refl ht.inv) hleft
  · rename_i op _
    split
    · exact .pure (.refl ht.inv) hleft
    · refine take ht.inv htoken fun _ u hu _ => ?_
      refine (h (.joined (looseness op)) u hu.inv).bind fun right v hv hright => ?_
      have hright : right.Sound v.buffer.behind v.scopes := hright
      have hleft := hv.expr (hu.expr hleft)
      exact .pure (.refl hv.inv)
        ⟨hv.inv, .binary (hleft.span.merge hright.span) hleft hright⟩

/-! ### Statements -/

theorem condition : C.Parses p (condition again) (Parser.condition again')
    fun e q => e.Sound q.buffer.behind q.scopes := by
  refine (expect hp .parenOpen).bind fun _ q hq _ => (h.expr hq.inv).bind fun test r hr htest => ?_
  refine (expect hr.inv .parenClose).bind fun _ t ht _ => .pure (.refl ht.inv) ?_
  exact ht.expr htest

theorem returned {keyword : Span} (hspan : keyword.Fits p.buffer.behind) :
    C.Parses p (returned again keyword) (Parser.returned again' keyword)
      fun stmt q => Goal.conditional.Sound q.buffer.behind q.scopes stmt := by
  have hbare : ∀ t, C.Stays p t → C.Parses t
      (do
        Parser.expectTerminator
        return .ret keyword none)
      (do
        Parser.expectTerminator
        return .ret keyword none)
      fun stmt q => Goal.conditional.Sound q.buffer.behind q.scopes stmt := by
    intro t ht
    refine (expectTerminator ht.inv).bind fun _ u hu _ => .pure (.refl hu.inv) ⟨?_, rfl⟩
    exact .ret (hu.fits (ht.fits hspan)) (by simp)
  refine look hp fun token t ht htoken => ?_
  split
  · exact hbare t ht
  · exact hbare t ht
  · exact hbare t ht
  · refine (h.expr ht.inv).bind fun value u hu hvalue => ?_
    refine (expectTerminator hu.inv).bind fun _ v hv _ => .pure (.refl hv.inv) ⟨?_, rfl⟩
    have hvalue := hv.expr hvalue
    exact .ret ((hv.fits (hu.fits (ht.fits hspan))).merge hvalue.span) (by simpa using hvalue)

theorem returnStmt : C.Parses p (returnStmt again) (Parser.returnStmt again')
    fun stmt q => Goal.conditional.Sound q.buffer.behind q.scopes stmt := by
  refine (keyword hp).bind fun keyword q hq hspan => ?_
  refine Agrees.bind (Q := fun _ _ => True) (.get (.pure (.refl hq.inv) trivial))
    fun found r hr _ => ?_
  have hspan := hr.fits hspan
  have hrest := h.returned hr.inv hspan
  cases found with
  | true => exact hrest
  | false =>
      refine (fail (Q := fun _ _ => False) hr.inv (hspan.mono r.buffer.behind_le)
        fun _ hopened => ?_).bind fun _ _ _ hfalse => hfalse.elim
      cases hopened

theorem conditional : C.Parses p (conditional again) (Parser.conditional again')
    fun stmt q => Goal.conditional.Sound q.buffer.behind q.scopes stmt := by
  refine (keyword hp).bind fun keyword q hq hspan => ?_
  refine (h.condition hq.inv).bind fun test r hr htest => ?_
  refine (h.innerBlock hr.inv .block).bind fun yes t ht hyes => ?_
  have hspan := (ht.fits (hr.fits hspan)).merge hyes.span
  have htest := ht.expr htest
  refine (eat ht.inv .kwElse).bind fun found u hu _ => ?_
  have hspan := hu.fits hspan
  have htest := hu.expr htest
  have hyes := hu.block hyes
  cases found with
  | false => exact .pure (.refl hu.inv) ⟨.cond hspan htest hyes (by simp), rfl⟩
  | true =>
      have hend : ∀ (no : Block) v, C.Stays u v → no.Sound v.buffer.behind .block v.scopes →
          C.Parses v (pure (.cond ((keyword.span.merge yes.span).merge no.span) test yes (some no)))
            (pure (.cond ((keyword.span.merge yes.span).merge no.span) test yes (some no)))
            fun stmt q => Goal.conditional.Sound q.buffer.behind q.scopes stmt := by
        intro no v hv hno
        refine .pure (.refl hv.inv) ⟨?_, rfl⟩
        exact .cond ((hv.fits hspan).merge hno.span) (hv.expr htest) (hv.block hyes)
          (by simpa using hno)
      refine (check hu.inv .kwIf).bind fun found v hv _ => ?_
      cases found with
      | false =>
          refine (h.innerBlock hv.inv .block).bind fun no w hw hno => ?_
          exact hend no w (Trans.trans hv hw) hno
      | true =>
          -- the conditional behind `else` is the only statement of a block that has no braces
          refine (h.inside hv.inv .conditional .block []).bind fun nested w hw hnested => ?_
          exact hend _ w (Trans.trans hv hw) (.mk hnested.1.span (.cons hnested.1 .nil))

theorem whileStmt : C.Parses p (whileStmt again) (Parser.whileStmt again')
    fun stmt q => Goal.conditional.Sound q.buffer.behind q.scopes stmt := by
  refine (keyword hp).bind fun keyword q hq hspan => ?_
  refine (h.condition hq.inv).bind fun test r hr htest => ?_
  refine (h.innerBlock hr.inv .block).bind fun body t ht hbody => .pure (.refl ht.inv) ⟨?_, rfl⟩
  exact .loop ((ht.fits (hr.fits hspan)).merge hbody.span) (ht.expr htest) hbody

theorem exprStmt : C.Parses p (exprStmt again) (Parser.exprStmt again')
    fun stmt q => Goal.conditional.Sound q.buffer.behind q.scopes stmt := by
  refine (h.expr hp).bind fun target q hq htarget => ?_
  refine (eat hq.inv .assign).bind fun found r hr _ => ?_
  have htarget := hr.expr htarget
  cases found with
  | false =>
      refine (expectTerminator hr.inv).bind fun _ t ht _ => .pure (.refl ht.inv) ?_
      exact ⟨.expr (ht.expr htarget), rfl⟩
  | true =>
      refine (h.expr hr.inv).bind fun value t ht hvalue => ?_
      have htarget := ht.expr htarget
      have hspan := htarget.span.merge hvalue.span
      dsimp only
      split
      · refine (expectTerminator ht.inv).bind fun _ u hu _ => .pure (.refl hu.inv) ⟨?_, rfl⟩
        cases hu.expr htarget with
        | lexical _ href => exact .assignLexical (hu.fits hspan) href (hu.expr hvalue)
      · refine (expectTerminator ht.inv).bind fun _ u hu _ => .pure (.refl hu.inv) ⟨?_, rfl⟩
        exact .assignGlobal (hu.fits hspan) (hu.expr hvalue)
      · refine fail ht.inv (htarget.span.mono t.buffer.behind_le) fun _ hopened => ?_
        cases hopened

theorem beginStmt : C.Parses p (beginStmt host rounds again) (Parser.beginStmt host' rounds again')
    fun _ _ => True := by
  refine (keyword hp).bind fun keyword q hq hspan => ?_
  refine (h.innerBlock hq.inv .beginBlock).bind fun body r hr hbody => ?_
  obtain ⟨buffer, scopes, s⟩ := r
  have hbegin := C.begins rounds hr.inv hbody ((hr.fits hspan).merge hbody.span)
  simp only [Agrees, runBegin, hbegin.same]
  cases hrun : host.runBegin rounds body (keyword.span.merge body.span) (buffer, s) with
  | value a t => exact ⟨trivial, ⟨⟨(hbegin.value hrun).1, rfl⟩, rfl⟩, trivial⟩
  | error e t => exact ⟨trivial, ⟨⟨(hbegin.error hrun).1, rfl⟩, rfl⟩, (hbegin.error hrun).2⟩
  | cutOff => exact ⟨trivial, trivial⟩

theorem subStmt : C.Parses p (subStmt host rounds again) (Parser.subStmt host' rounds again')
    fun _ _ => True := by
  refine (keyword hp).bind fun keyword q hq hspan => ?_
  refine (expectIdent hq.inv).bind fun found r hr _ => ?_
  refine (h.function hr.inv _ .sub (hr.fits hspan)).bind fun f t ht hf => ?_
  have hsame : Parser.installSub host' found.1 f = Parser.installSub host found.1 f := by
    unfold Parser.installSub
    rw [C.sameSubs]
  obtain ⟨buffer, scopes, s⟩ := t
  change C.Parses _ (Parser.installSub host found.1 f) (Parser.installSub host' found.1 f) _
  rw [hsame]
  exact .update ⟨⟨C.installs found.1 ht.inv hf, rfl⟩, rfl⟩ trivial

/-- `let` is the only statement that declares a name. -/
theorem letStmt : Agrees C.Moves C.Failing p (letStmt again) (Parser.letStmt again')
    fun stmt q => stmt.Sound q.buffer.behind p.scopes ∧ q.scopes = stmt.scopesBehind p.scopes := by
  refine (moves (keyword hp)).bind fun keyword q _ hq => ?_
  refine (moves (expectLexicalName hq.1.inv)).bind fun name r _ hr => ?_
  refine (moves (expect hr.1.inv .assign)).bind fun _ t _ ht => ?_
  refine (moves (h.expr ht.1.inv)).bind fun value u _ hu => ?_
  refine (moves (expectTerminator hu.1.inv)).bind fun _ v _ hv => ?_
  have hbefore : C.Stays q u := Trans.trans hr.1 (Trans.trans ht.1 hu.1)
  have hpv : C.Stays p v := Trans.trans hq.1 (Trans.trans hbefore hv.1)
  have hvalue := hv.1.expr hu.2
  have hspan := (hv.1.fits (hbefore.fits hq.2)).merge hvalue.span
  rw [hpv.scopes] at hvalue
  obtain ⟨buffer, scopes, s⟩ := v
  have hscopes : scopes = p.scopes := hpv.scopes
  subst hscopes
  refine Agrees.bind (Q := fun _ w => w = ⟨buffer, Stmt.scopesBehind p.scopes
    (.define (keyword.span.merge value.span) name value), s⟩) (.update ⟨C.refl hv.1.inv, ?_⟩ rfl) ?_
  · exact Stmt.tail_scopesBehind (.define (keyword.span.merge value.span) name value) p.scopes
  · rintro _ _ _ rfl
    exact .pure ⟨C.refl hv.1.inv, rfl⟩ ⟨.define hspan hvalue, rfl⟩

/-- What is known behind a statement, or where there is none. -/
def Behind (scopes : List LexicalScope) : Option Stmt → State σ → Prop
  | none, q => q.scopes = scopes
  | some stmt, q => stmt.Sound q.buffer.behind scopes ∧ q.scopes = stmt.scopesBehind scopes

theorem statement : Agrees C.Moves C.Failing p (statement host rounds again)
    (Parser.statement host' rounds again') (Behind p.scopes) := by
  refine (moves (peek hp)).bind fun token q _ hq => ?_
  obtain ⟨hq, htoken, _⟩ := hq
  have hnone : ∀ {body body' : Parse σ Unit}, C.Parses q body body' (fun _ _ => True) →
      Agrees C.Moves C.Failing q (body >>= fun _ => pure none) (body' >>= fun _ => pure none)
        (Behind p.scopes) := fun hbody =>
    (moves hbody).bind fun _ r hr hstays =>
      .pure ⟨C.refl hr.inv, rfl⟩ (hstays.1.scopes.trans hq.scopes)
  have hsome : ∀ {body body' : Parse σ Stmt}, C.Parses q body body'
      (fun stmt q => Goal.conditional.Sound q.buffer.behind q.scopes stmt) →
      Agrees C.Moves C.Failing q (some <$> body) (some <$> body') (Behind p.scopes) := by
    intro body body' hbody
    rw [map_eq_pure_bind, map_eq_pure_bind]
    refine (moves hbody).bind fun stmt r hr hstmt => .pure ⟨C.refl hr.inv, rfl⟩ ?_
    obtain ⟨hstays, hsound, hbehind⟩ := hstmt
    rw [hstays.scopes, hq.scopes] at hsound hbehind
    exact ⟨hsound, (hstays.scopes.trans hq.scopes).trans hbehind.symm⟩
  split
  · exact (moves (advance hq.inv)).bind fun _ r hr hstays =>
      .pure ⟨C.refl hr.inv, rfl⟩ (hstays.1.scopes.trans hq.scopes)
  · exact hnone (h.beginStmt hq.inv)
  · exact hnone (h.subStmt hq.inv)
  · rw [map_eq_pure_bind, map_eq_pure_bind]
    refine (h.letStmt hq.inv).bind fun stmt r hr hstmt => .pure ⟨C.refl hr.inv, rfl⟩ ?_
    rwa [hq.scopes] at hstmt
  · exact hsome (h.returnStmt hq.inv)
  · exact hsome (h.conditional hq.inv)
  · exact hsome (h.whileStmt hq.inv)
  · rw [blockStmt_eq, blockStmt_eq]
    refine hsome ((h.innerBlock hq.inv .block).bind fun body r hr hbody => ?_)
    exact .pure (.refl hr.inv) ⟨.block hbody, rfl⟩
  · exact hsome (h.exprStmt hq.inv)

/-! ### Blocks -/

/-- The statements of a block so far. -/
structure Led (C : Conduct host host') (kind : ScopeKind) (outer : List LexicalScope)
    (stmts : List Stmt) (p : State σ) : Prop where
  inv : C.Inv p.buffer p.host
  lead : Stmt.Lead p.buffer.behind (.empty kind :: outer) stmts.reverse p.scopes

omit h hp in
theorem Led.mono {kind : ScopeKind} {outer : List LexicalScope} {stmts : List Stmt}
    (hled : Led C kind outer stmts p) (hq : C.Stays p q) : Led C kind outer stmts q :=
  ⟨hq.inv, hq.scopes ▸ hled.lead.mono hq.behind⟩

omit hp in
/-- One more statement. -/
theorem next {kind : ScopeKind} {outer : List LexicalScope} {stmts : List Stmt}
    {R : Block → State σ → Prop} (hled : Led C kind outer stmts p) :
    Agrees C.Moves C.Failing p
      (do
        let stmt ← Parser.statement host rounds again
        return Run.Step.next (stmt.toList ++ stmts))
      (do
        let stmt ← Parser.statement host' rounds again'
        return Run.Step.next (stmt.toList ++ stmts))
      fun result q => match result with
        | .next more => Led C kind outer more q
        | .done body => R body q := by
  refine (h.statement hled.inv).bind fun stmt q hq hstmt => .pure ⟨C.refl hq.inv, rfl⟩ ⟨hq.inv, ?_⟩
  have hlead := hled.lead.mono hq.behind
  cases stmt with
  | none =>
      have hscopes : q.scopes = p.scopes := hstmt
      exact hscopes ▸ hlead
  | some stmt =>
      obtain ⟨hsound, hscopes⟩ := hstmt
      simp only [Option.toList_some, List.singleton_append, List.reverse_cons]
      exact hscopes ▸ hlead.snoc hsound

theorem block (kind : ScopeKind) :
    C.Parses p (block host rounds again kind) (Parser.block host' rounds again' kind)
      fun body q => body.Sound q.buffer.behind kind q.scopes := by
  refine (expect hp .braceOpen).bind fun openToken q hq hopen => ?_
  refine inScope hq.inv kind [] fun r hr hscopes hbuffer => ?_
  have hopen : openToken.span.Fits r.buffer.behind := hbuffer ▸ hopen.1
  have hstart : Led C kind q.scopes [] r := ⟨hr, hscopes ▸ .nil⟩
  refine Agrees.weaken (Q := fun body t => body.Sound t.buffer.behind kind q.scopes) ?_
    (fun _ h => h) (fun body t ht hbody => ?_) fun _ _ _ h => h
  · refine .iterate (J := fun stmts t => openToken.span.Fits t.buffer.behind ∧
      Led C kind q.scopes stmts t) (fun stmts t ht => ?_) rounds [] ⟨hopen, hstart⟩
    obtain ⟨hopen, hled⟩ := ht
    refine (moves (peek hled.inv)).bind fun token u _ hu => ?_
    obtain ⟨hu, htoken, _⟩ := hu
    have hopen := hu.fits hopen
    have hled := hled.mono hu
    split
    · refine (moves (advance hu.inv)).bind fun _ v hv hspan => .pure ⟨C.refl hv.inv, rfl⟩ ?_
      exact .mk ((hv.fits hopen).merge (htoken ▸ hspan.2)) (hled.mono hspan.1).lead
    · refine Agrees.weaken (moves (Q := fun _ _ => False) (fail hu.inv
        (htoken ▸ u.buffer.found_fits) fun opened hopened => ?_)) (fun _ h => h)
        (fun _ _ _ hfalse => hfalse.2.elim) fun _ _ _ h => h
      cases hopened
      exact hopen.mono u.buffer.behind_le
    · refine (h.next hled (R := fun _ _ => False)).weaken (fun _ h => h)
        (fun result v hv hresult => ?_) fun _ _ _ h => h
      cases result with
      | next more => exact ⟨hv.fits hopen, hresult⟩
      | done body => exact hresult.elim
  · have htail : t.scopes.tail = q.scopes := by rw [ht.tail, hscopes, List.tail_cons]
    exact htail ▸ hbody

/-- One part of the grammar is parsed to sound code. -/
theorem parse {α : Type} (goal : Goal α) :
    C.Parses p (parse host rounds again goal) (Parser.parse host' rounds again' goal)
      fun a q => goal.Sound q.buffer.behind q.scopes a := by
  cases goal with
  | expr => exact h.joined hp 6
  | joined limit => exact h.joined hp limit
  | unary => exact h.unary hp
  | block kind => exact h.block hp kind
  | conditional => exact h.conditional hp

/-- All of a text is parsed to a sound block. -/
theorem unit : C.Parses p (unit host rounds again) (Parser.unit host' rounds again')
    fun body q => body.Sound q.buffer.chars .unit q.scopes := by
  refine inScope hp .unit [] fun r hr hscopes _ => ?_
  have hstart : Led C .unit p.scopes [] r := ⟨hr, hscopes ▸ .nil⟩
  refine Agrees.weaken (Q := fun body t => body.Sound t.buffer.chars .unit p.scopes) ?_
    (fun _ h => h) (fun body t ht hbody => ?_) fun _ _ _ h => h
  · refine .iterate (J := Led C .unit p.scopes) (fun stmts t hled => ?_) rounds [] hstart
    refine (moves (peek hled.inv)).bind fun token u _ hu => ?_
    obtain ⟨hu, htoken, _⟩ := hu
    have hled := hled.mono hu
    split
    · refine .pure ⟨C.refl hu.inv, rfl⟩ (.mk ?_ (hled.lead.mono u.buffer.behind_le))
      exact ⟨Nat.zero_le _, .zero, htoken ▸ u.buffer.found_fits.stop⟩
    · exact (moves (Q := fun _ _ => False) (unexpected hu.inv htoken _)).weaken (fun _ h => h)
        (fun _ _ _ hfalse => hfalse.2.elim) fun _ _ _ h => h
    · exact (h.next hled (R := fun body v => body.Sound v.buffer.chars .unit p.scopes)).weaken
        (fun _ h => h) (fun result _ _ hresult => by cases result <;> exact hresult)
        fun _ _ _ h => h
  · have htail : t.scopes.tail = p.scopes := by rw [ht.tail, hscopes, List.tail_cons]
    exact htail ▸ hbody

end Parts

/-! ## Nesting -/

/-- Parses for two hosts agree, however deep they nest. -/
theorem run (C : Conduct host host') (bound : Nat) :
    C.Parts (Parser.run host bound) (Parser.run host' bound) := by
  induction bound with
  | zero => exact fun _ _ _ => ⟨rfl, trivial⟩
  | succ bound ih =>
      intro α goal p hp
      change C.Parses p (Parser.run host (bound + 1) goal) (Parser.run host' (bound + 1) goal) _
      rw [run_succ, run_succ]
      exact ih.parse hp goal

/-- The parse of a unit gives a sound block. -/
theorem runUnit (C : Conduct host host') (bound : Nat) (hp : C.Inv p.buffer p.host) :
    C.Parses p (Parser.runUnit host bound) (Parser.runUnit host' bound)
      fun body q => body.Sound q.buffer.chars .unit q.scopes :=
  Parts.unit hp (C.run bound)

end Conduct

end TwoPhase.Parser
