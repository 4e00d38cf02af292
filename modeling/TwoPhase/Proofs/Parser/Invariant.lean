import TwoPhase.Parser.Grammar
import TwoPhase.Proofs.Triple

/-!
# Invariants of parsing

Parsing changes the buffer and the host in few ways: it looks at the next token, consumes it, lets
the host resolve a name or take in a sub, and runs a `begin` block.  An invariant of buffer and host
that these keep is kept by every parse (`run_keeps`).

Two facts are known at every point of a parse and need no invariant of their own.  No lexical name
is ever a path, so a path always means a global.  And a token that was looked at is the next one
until it is consumed, so the keyword `begin` is consumed where a `begin` block starts and nowhere
else, and the end of the text never.
-/

namespace TwoPhase.Parser

open Run (Triple)

variable {σ α : Type}

/-! ## Scopes -/

/-- No name declared in a scope is a path. -/
def LexicalScope.Plain (scope : LexicalScope) : Prop :=
  ∀ name, scope.names.contains name = true → isPath name = false

/-- No lexical name is a path. -/
def Plain (scopes : List LexicalScope) : Prop := ∀ scope ∈ scopes, scope.Plain

theorem LexicalScope.Plain.declare {scope : LexicalScope} (h : scope.Plain) {name : String}
    (hname : isPath name = false) : (scope.declare name).Plain := by
  intro other hother
  rw [LexicalScope.declare, Std.TreeMap.contains_insert] at hother
  rcases Bool.or_eq_true_iff.1 hother with heq | hold
  · rwa [← Std.LawfulEqCmp.eq_of_compare (beq_iff_eq.1 heq)]
  · exact h other hold

theorem LexicalScope.Plain.declaring (kind : ScopeKind) {names : List String}
    (hnames : ∀ name ∈ names, isPath name = false) : (declaring kind names).Plain := by
  have hfold : ∀ (names : List String) (scope : LexicalScope), scope.Plain →
      (∀ name ∈ names, isPath name = false) → (names.foldl LexicalScope.declare scope).Plain := by
    intro names
    induction names with
    | nil => exact fun _ h _ => h
    | cons name names ih =>
        intro scope h hall
        exact ih _ (h.declare (hall name List.mem_cons_self))
          fun other hother => hall other (List.mem_cons_of_mem _ hother)
  exact hfold names _ (fun name hname => by simp [LexicalScope.empty] at hname) hnames

theorem Plain.nil : Plain [] := fun _ h => absurd h List.not_mem_nil

theorem Plain.tail {scopes : List LexicalScope} (h : Plain scopes) : Plain scopes.tail :=
  fun scope hscope => h scope (List.mem_of_mem_tail hscope)

/-- A path means a global in every scope. -/
theorem Plain.lexical? {scopes : List LexicalScope} (h : Plain scopes) {name : String}
    (hpath : isPath name = true) : lexical? name scopes = none := by
  induction scopes with
  | nil => rfl
  | cons scope outer ih =>
      have hname : scope.names[name]? = none := by
        cases hname : scope.names.contains name with
        | false => exact Std.TreeMap.getElem?_eq_none_of_contains_eq_false hname
        | true => simp [h scope List.mem_cons_self name hname] at hpath
      have houter := ih fun s hs => h s (List.mem_cons_of_mem _ hs)
      simp [Parser.lexical?, hname, houter]

theorem Plain.push {scopes : List LexicalScope} (h : Plain scopes) {scope : LexicalScope}
    (hscope : scope.Plain) : Plain (scope :: scopes) := by
  intro other hother
  rcases List.mem_cons.1 hother with rfl | hother
  · exact hscope
  · exact h other hother

theorem Plain.declareIn {scopes : List LexicalScope} (h : Plain scopes) {name : String}
    (hname : isPath name = false) : Plain (declareIn name scopes) := by
  cases scopes with
  | nil => exact h
  | cons scope outer =>
      exact Plain.push (fun s hs => h s (List.mem_cons_of_mem _ hs))
        ((h scope List.mem_cons_self).declare hname)

/-! ## The invariant -/

/-- What is known at every point of a parse with an invariant of buffer and host. -/
structure Holds (I : Buffer → σ → Prop) (s : State σ) : Prop where
  plain : Plain s.scopes
  keeps : I s.buffer s.host

/-- What is known when a token has just been looked at. -/
def Sees (I : Buffer → σ → Prop) (token : Token) (s : State σ) : Prop :=
  Holds I s ∧ s.buffer.found.token = token

/-- A token that is in the text and does not start a `begin` block. -/
@[simp] def Ordinary (kind : TokenKind) : Prop := kind ≠ .kwBegin ∧ kind ≠ .endOfInput

/-- A state whose next token is an ordinary one. -/
def Open (I : Buffer → σ → Prop) (s : State σ) : Prop :=
  Holds I s ∧ Ordinary s.buffer.found.token.kind

/-- What is known before a part is parsed.  All but conditionals look at their first token before
they consume it. -/
def Before (I : Buffer → σ → Prop) : {α : Type} → Goal α → State σ → Prop
  | _, .conditional => Open I
  | _, _ => Holds I

/-- What parsing may do to buffer and host keeps an invariant, and an error leaves them with
`E`. -/
structure Respects (host : Host σ) (rounds : Nat) (again : Again σ) (I E : Buffer → σ → Prop) :
    Prop where
  nested : ∀ {α : Type} (goal : Goal α),
    Triple (Before I goal) (again goal) (fun _ => Holds I) (fun _ s => E s.buffer s.host)
  weak : ∀ {b : Buffer} {s : σ}, I b s → E b s
  looks : ∀ {b : Buffer} {s : σ}, I b s → I b.lookAhead s
  advances : ∀ {b : Buffer} {s : σ}, I b s → Ordinary b.found.token.kind → I b.next.2 s
  resolves : ∀ {b : Buffer} {s : σ} (name : String), I b s → I b (host.resolveGlobal name s).2
  installs : ∀ {b : Buffer} {s : σ} (name : String) (function : Function), I b s →
    I b (host.installSub name function s)
  begins : Triple (fun s => Holds I s ∧ s.buffer.found.token.kind = .kwBegin)
    (beginStmt host rounds again) (fun _ => Holds I) (fun _ s => E s.buffer s.host)

/-- A parse that keeps an invariant. -/
def Passes (I E : Buffer → σ → Prop) (body : Parse σ α) : Prop :=
  Triple (Holds I) body (fun _ => Holds I) (fun _ s => E s.buffer s.host)

/-- A parse of something that is not a `begin` block, from its first token on. -/
def Follows (I E : Buffer → σ → Prop) (token : Token) (body : Parse σ α) : Prop :=
  Triple (Sees I token) body (fun _ => Holds I) (fun _ s => E s.buffer s.host)

namespace Respects

variable {host : Host σ} {rounds : Nat} {again : Again σ} {I E : Buffer → σ → Prop}
  (h : Respects host rounds again I E)

omit h in
theorem pure (a : α) : Passes I E (Pure.pure a : Parse σ α) := fun _ hs => hs

omit h in
theorem seen {token : Token} {body : Parse σ α} {Q : α → State σ → Prop}
    (hbody : Triple (Holds I) body Q (fun _ s => E s.buffer s.host)) :
    Triple (Sees I token) body Q (fun _ s => E s.buffer s.host) :=
  hbody.weaken (fun _ hs => hs.1) (fun _ _ => id) (fun _ _ => id)

omit h in
theorem bind {β : Type} {body : Parse σ α} {next : α → Parse σ β} (hbody : Passes I E body)
    (hnext : ∀ a, Passes I E (next a)) : Passes I E (body >>= next) :=
  Triple.bind hbody hnext

include h

/-! ## Tokens -/

theorem fail (fault : ParseFault) (span : Span) : Passes I E (fail fault span : Parse σ α) :=
  fun _ hs => h.weak hs.keeps

theorem unexpected (what : String) (token : Token) :
    Passes I E (unexpected what token : Parse σ α) :=
  h.fail _ _

theorem peek : Triple (Holds I) peek (Sees I) (fun _ s => E s.buffer s.host) := by
  intro s hs
  change Sees I s.buffer.peek.1 { s with buffer := s.buffer.peek.2 }
  unfold Buffer.peek
  split
  · rename_i found hpeeked
    exact ⟨hs, by simp [Buffer.found, hpeeked]⟩
  · exact ⟨⟨hs.plain, h.looks hs.keeps⟩, rfl⟩

/-- A parse that looks at the next token first. -/
theorem look {body : Token → Parse σ α} (hbody : ∀ token, Follows I E token (body token)) :
    Passes I E (Parser.peek >>= body) :=
  h.peek.bind hbody

theorem advance : Triple (Open I) advance (fun _ => Holds I) (fun _ s => E s.buffer s.host) :=
  fun _ hs => ⟨hs.1.plain, h.advances hs.1.keeps hs.2⟩

/-- A parse that consumes a token it has looked at first. -/
theorem take {token : Token} {body : Token → Parse σ α} {Q : α → State σ → Prop}
    (hkind : Ordinary token.kind)
    (hbody : ∀ next, Triple (Holds I) (body next) Q (fun _ s => E s.buffer s.host)) :
    Triple (Sees I token) (Parser.advance >>= body) Q (fun _ s => E s.buffer s.host) :=
  Triple.bind (Q := fun _ => Holds I)
    (h.advance.weaken (fun _ hs => ⟨hs.1, hs.2 ▸ hkind⟩) (fun _ _ => id) (fun _ _ => id)) hbody

theorem check (kind : TokenKind) : Triple (Holds I) (check kind)
    (fun found s => Holds I s ∧ (found = true → s.buffer.found.token.kind = kind))
    (fun _ s => E s.buffer s.host) :=
  h.peek.bind fun _ _ hs => ⟨hs.1, fun hkind => hs.2 ▸ (beq_iff_eq.1 hkind)⟩

theorem checkKeeps (kind : TokenKind) : Passes I E (Parser.check kind) :=
  (h.check kind).weaken (fun _ => id) (fun _ _ hs => hs.1) (fun _ _ => id)

theorem eat {kind : TokenKind} (hkind : Ordinary kind) : Passes I E (eat kind) := by
  refine (h.check kind).bind fun found => ?_
  cases found with
  | false => exact fun _ hs => hs.1
  | true =>
      exact Triple.bind (Q := fun _ => Holds I)
        (h.advance.weaken (fun _ hs => ⟨hs.1, hs.2 rfl ▸ hkind⟩) (fun _ _ => id) (fun _ _ => id))
        fun _ => pure _

theorem expect {kind : TokenKind} (hkind : Ordinary kind) : Passes I E (expect kind) := by
  refine h.look fun token => ?_
  split
  · rename_i heq
    exact h.advance.weaken (fun _ hs => ⟨hs.1, hs.2 ▸ heq ▸ hkind⟩) (fun _ _ => id)
      (fun _ _ => id)
  · exact seen (h.unexpected _ _)

theorem expectIdent : Passes I E (expectIdent : Parse σ (String × Span)) := by
  refine h.look fun token => ?_
  split
  · rename_i name hkind
    exact h.take (by simp [hkind]) fun _ => pure _
  · exact seen (h.fail _ _)

theorem expectLexicalName : Triple (Holds I) expectLexicalName
    (fun name s => isPath name = false ∧ Holds I s) (fun _ s => E s.buffer s.host) := by
  refine Triple.bind h.expectIdent fun found => ?_
  obtain ⟨name, span⟩ := found
  dsimp only
  split
  · exact fun s hs => h.weak hs.keeps
  · rename_i hname
    exact fun s hs => ⟨by simpa using hname, hs⟩

theorem expectTerminator : Passes I E (expectTerminator : Parse σ Unit) := by
  refine bind (h.eat (by simp)) fun eaten => ?_
  cases eaten with
  | true => exact pure _
  | false =>
      refine h.look fun token => ?_
      split
      · exact seen (pure _)
      · exact seen (pure _)
      · exact seen (h.unexpected _ _)

/-! ## Scopes and events -/

omit h in
theorem inScope (kind : ScopeKind) {names : List String} {body : Parse σ α}
    {P J : State σ → Prop} {Q : α → State σ → Prop} {F : CompileError → State σ → Prop}
    (henter : ∀ s, P s → J { s with scopes := .declaring kind names :: s.scopes })
    (hbody : Triple J body (fun a s => Q a { s with scopes := s.scopes.tail })
      (fun e s => F e { s with scopes := s.scopes.tail })) :
    Triple P (inScope kind names body) Q F :=
  Triple.bind (Q := fun _ => J) henter fun _ => Triple.ensuring hbody

omit h in
theorem inScopeKeeps (kind : ScopeKind) {names : List String} {body : Parse σ α}
    (hnames : ∀ name ∈ names, isPath name = false)
    (hbody : Passes I E body) : Passes I E (Parser.inScope kind names body) :=
  inScope (J := Holds I) kind (fun _ hs => ⟨hs.plain.push (.declaring kind hnames), hs.keeps⟩)
    (hbody.weaken (fun _ => id) (fun _ _ hs => ⟨hs.plain.tail, hs.keeps⟩) (fun _ _ => id))

omit h in
theorem declare {name : String} (hname : isPath name = false) :
    Passes I E (declare name : Parse σ Unit) := by
  intro s hs
  exact ⟨hs.plain.declareIn hname, hs.keeps⟩

theorem resolve {token : Token} (name : String) (span : Span) :
    Triple (Sees I token) (resolve host name span) (fun _ => Sees I token)
      (fun _ s => E s.buffer s.host) := by
  intro s hs
  unfold Parser.resolve
  rw [Run.modifyGet_apply]
  dsimp only
  split
  · exact hs
  · exact ⟨⟨hs.1.plain, h.resolves name hs.1.keeps⟩, hs.2⟩

theorem installSub (name : String) (function : Function) :
    Passes I E (installSub host name function) :=
  fun _ hs => ⟨hs.plain, h.installs name function hs.keeps⟩

/-! ## Lists and functions -/

omit h in
theorem iterate {β : Type} {step : α → Parse σ (Run.Step α β)}
    (hstep : ∀ a, Passes I E (step a)) (a : α) : Passes I E (Run.iterate rounds step a) :=
  Triple.iterate (I := fun _ => Holds I) (fun a => (hstep a).weaken (fun _ => id)
    (fun result _ hs => by cases result <;> exact hs) (fun _ _ => id)) rounds a

/-- A comma, unless the list ends. -/
theorem separator {kind : TokenKind} {β : Type} {next : Parse σ β} (hnext : Passes I E next) :
    Passes I E (do
      if !(← Parser.check kind) then let _ ← Parser.expect .comma
      next) := by
  refine bind (h.checkKeeps kind) fun found => ?_
  cases found with
  | true => exact hnext
  | false => exact bind (h.expect (by simp)) fun _ => hnext

theorem delimited {opening closing : TokenKind} (hopening : Ordinary opening)
    (hclosing : Ordinary closing) (delimiter : Char) :
    Passes I E (delimited rounds again opening closing delimiter) := by
  refine bind (h.expect hopening) fun openToken => iterate (fun items => ?_) _
  refine h.look fun token => ?_
  split
  · rename_i heq
    exact h.take (heq ▸ hclosing) fun _ => pure _
  · split
    · exact seen (bind (h.fail _ _) fun _ => bind (h.nested .expr) fun _ => h.separator (pure _))
    · exact seen (bind (h.nested .expr) fun _ => h.separator (pure _))

/-- The names of a parameter list are not paths. -/
theorem parameters : Triple (Holds I) (parameters rounds)
    (fun names s => (∀ name ∈ names, isPath name = false) ∧ Holds I s)
    (fun _ s => E s.buffer s.host) := by
  refine Triple.bind (h.expect (by simp)) fun openToken => ?_
  refine Triple.weaken (Triple.iterate
    (I := fun names s => (∀ name ∈ names, isPath name = false) ∧ Holds I s)
    (fun names => .assume fun hnames => ?_) rounds [])
    (fun s hs => ⟨by simp, hs⟩) (fun _ _ => id) (fun _ _ => id)
  refine h.peek.bind fun token => ?_
  split
  · rename_i hkind
    exact h.take (by simp [hkind]) fun _ s hs => ⟨by simpa using hnames, hs⟩
  · exact seen fun s hs => h.weak hs.keeps
  · refine seen (h.expectLexicalName.bind fun name => .assume fun hname => ?_)
    have hall : ∀ other ∈ name :: names, isPath other = false := by
      rintro other (_ | ⟨_, hother⟩)
      · exact hname
      · exact hnames other hother
    exact Triple.bind (h.checkKeeps .parenClose) fun found => by
      cases found with
      | true => exact fun s hs => ⟨hall, hs⟩
      | false => exact Triple.bind (h.expect (by simp)) fun _ s hs => ⟨hall, hs⟩

theorem function (name : Option String) (kind : ScopeKind) (start : Span) :
    Passes I E (function rounds again name kind start) := by
  refine Triple.bind h.parameters fun params => .assume fun hparams => ?_
  exact bind (inScopeKeeps kind hparams (h.nested (.block .block))) fun _ => pure _

/-! ## Expressions -/

omit h in
theorem ordinary_of_literal {token : Token} {expr : Expr} (hliteral : literal? token = some expr) :
    Ordinary token.kind := by
  constructor <;> intro hkind <;> simp [literal?, hkind] at hliteral

theorem primary : Passes I E (primary host rounds again) := by
  refine h.look fun token => ?_
  cases hliteral : literal? token with
  | some expr => exact h.take (ordinary_of_literal hliteral) fun _ => pure _
  | none =>
      dsimp only
      split <;> rename_i hkind
      · exact (h.resolve _ _).bind fun _ => h.take (by simp [hkind]) fun _ => pure _
      · exact h.take (by simp [hkind]) fun _ => bind (h.nested .expr) fun _ =>
          bind (h.expect (by simp)) fun _ => pure _
      · exact seen (bind (h.delimited (by simp) (by simp) _) fun _ => pure _)
      · exact h.take (by simp [hkind]) fun _ => bind (h.function _ _ _) fun _ => pure _
      · exact seen (h.fail _ _)

theorem call : Passes I E (call host rounds again) := by
  refine bind h.primary fun callee => iterate (fun callee => ?_) _
  refine bind (h.checkKeeps _) fun found => ?_
  cases found with
  | true => exact bind (h.delimited (by simp) (by simp) _) fun _ => pure _
  | false => exact pure _

theorem unary : Passes I E (unary host rounds again) := by
  refine h.look fun token => ?_
  dsimp only
  split <;> rename_i hkind
  · exact h.take (by simp [hkind]) fun _ => bind (h.nested .unary) fun _ => pure _
  · exact h.take (by simp [hkind]) fun _ => bind (h.nested .unary) fun _ => pure _
  · exact seen h.call

theorem joined (limit : Nat) : Passes I E (joined host rounds again limit) := by
  refine bind h.unary fun left => iterate (fun left => ?_) _
  refine h.look fun token => ?_
  split
  · exact seen (pure _)
  · rename_i op hop
    have hkind : Ordinary token.kind := by
      constructor <;> intro hkind <;> simp [hkind, operator?] at hop
    split
    · exact seen (pure _)
    · exact h.take hkind fun _ => bind (h.nested (.joined (looseness op))) fun _ => pure _

/-! ## Statements -/

theorem condition : Passes I E (condition again) :=
  bind (h.expect (by simp)) fun _ => bind (h.nested .expr) fun _ =>
    bind (h.expect (by simp)) fun _ => pure _

theorem letStmt {token : Token} (hkind : token.kind = .kwLet) :
    Follows I E token (letStmt again) := by
  refine h.take (by simp [hkind]) fun keyword => ?_
  refine h.expectLexicalName.bind fun name => .assume fun hname => ?_
  exact bind (h.expect (by simp)) fun _ => bind (h.nested .expr) fun value =>
    bind h.expectTerminator fun _ => bind (declare hname) fun _ => pure _

theorem returnStmt {token : Token} (hkind : token.kind = .kwReturn) :
    Follows I E token (returnStmt again) := by
  refine h.take (by simp [hkind]) fun keyword => bind (fun _ hs => hs) fun found => ?_
  have hrest : Passes I E (returned again keyword.span) := by
    refine h.look fun token => seen ?_
    split
    · exact bind h.expectTerminator fun _ => pure _
    · exact bind h.expectTerminator fun _ => pure _
    · exact bind h.expectTerminator fun _ => pure _
    · exact bind (h.nested .expr) fun _ => bind h.expectTerminator fun _ => pure _
  split
  · exact bind (h.fail _ _) fun _ => hrest
  · exact hrest

theorem conditional : Triple (Open I) (conditional again) (fun _ => Holds I)
    (fun _ s => E s.buffer s.host) := by
  refine h.advance.bind fun keyword => ?_
  refine bind h.condition fun test => bind (h.nested (.block .block)) fun yes => ?_
  refine bind (h.eat (by simp)) fun found => ?_
  cases found with
  | false => exact pure _
  | true =>
      refine (h.check .kwIf).bind fun found => ?_
      cases found with
      | false =>
          exact Triple.bind (Q := fun _ => Holds I) (fun s hs => h.nested (.block .block) s hs.1)
            fun _ => pure _
      | true =>
          refine Triple.bind (Q := fun _ => Holds I) ?_ fun _ => pure _
          refine inScope (J := Open I) .block ?_ (h.nested .conditional |>.weaken (fun _ => id)
            (fun _ _ hs => ⟨hs.plain.tail, hs.keeps⟩) (fun _ _ => id))
          exact fun s hs => ⟨⟨hs.1.plain.push (.declaring .block (by simp)), hs.1.keeps⟩,
            by simp [hs.2 rfl]⟩

theorem whileStmt {token : Token} (hkind : token.kind = .kwWhile) :
    Follows I E token (whileStmt again) :=
  h.take (by simp [hkind]) fun _ => bind h.condition fun _ => bind (h.nested (.block .block))
    fun _ => pure _

theorem exprStmt : Passes I E (exprStmt again) := by
  refine bind (h.nested .expr) fun target => bind (h.eat (by simp)) fun found => ?_
  cases found with
  | false => exact bind h.expectTerminator fun _ => pure _
  | true =>
      refine bind (h.nested .expr) fun value => ?_
      dsimp only
      split
      · exact bind h.expectTerminator fun _ => pure _
      · exact bind h.expectTerminator fun _ => pure _
      · exact h.fail _ _

theorem subStmt {token : Token} (hkind : token.kind = .kwSub) :
    Follows I E token (subStmt host rounds again) :=
  h.take (by simp [hkind]) fun _ => bind h.expectIdent fun _ => bind (h.function _ _ _)
    fun _ => h.installSub _ _

theorem statement : Passes I E (statement host rounds again) := by
  refine h.look fun token => ?_
  split <;> rename_i hkind
  · exact h.take (by simp [hkind]) fun _ => pure _
  · exact Triple.bind (Q := fun _ => Holds I)
      (h.begins.weaken (fun _ hs => ⟨hs.1, hs.2 ▸ hkind⟩) (fun _ _ => id) (fun _ _ => id))
      fun _ => pure _
  · exact Triple.bind (Q := fun _ => Holds I) (h.subStmt hkind) fun _ => pure _
  · exact (h.letStmt hkind).bind fun _ => pure _
  · exact (h.returnStmt hkind).bind fun _ => pure _
  · exact Triple.bind (Q := fun _ => Holds I)
      (h.conditional.weaken (fun _ hs => ⟨hs.1, by simp [hs.2, hkind]⟩) (fun _ _ => id)
        (fun _ _ => id)) fun _ => pure _
  · exact (h.whileStmt hkind).bind fun _ => pure _
  · exact seen (bind (h.nested (.block .block)) fun _ => pure _)
  · exact seen (bind h.exprStmt fun _ => pure _)

theorem block (kind : ScopeKind) : Passes I E (block host rounds again kind) := by
  refine bind (h.expect (by simp)) fun openToken => ?_
  refine inScopeKeeps kind (by simp) (iterate (fun stmts => ?_) _)
  refine h.look fun token => ?_
  split <;> rename_i hkind
  · exact h.take (by simp [hkind]) fun _ => pure _
  · exact seen (h.fail _ _)
  · exact seen (bind h.statement fun _ => pure _)

/-- A unit that is parsed is parsed to the end. -/
theorem unit : Triple (Holds I) (unit host rounds again)
    (fun _ s => Holds I s ∧ s.buffer.found.token.kind = .endOfInput)
    (fun _ s => E s.buffer s.host) := by
  refine inScope (J := Holds I) .unit
    (fun _ hs => ⟨hs.plain.push (.declaring .unit (by simp)), hs.keeps⟩) ?_
  refine Triple.weaken (Triple.iterate (I := fun _ => Holds I)
    (R := fun _ s => Holds I s ∧ s.buffer.found.token.kind = .endOfInput) (fun stmts => ?_)
    rounds []) (fun _ => id) (fun _ _ hs => ⟨⟨hs.1.plain.tail, hs.1.keeps⟩, hs.2⟩) (fun _ _ => id)
  refine h.peek.bind fun token => ?_
  split <;> rename_i hkind
  · exact fun s hs => ⟨hs.1, hs.2 ▸ hkind⟩
  · exact seen fun s hs => h.weak hs.keeps
  · exact seen (Triple.bind h.statement fun _ _ hs => hs)

/-- What the listed operations keep, one part of the grammar keeps. -/
theorem parse (goal : Goal α) :
    Triple (Before I goal) (parse host rounds again goal) (fun _ => Holds I)
      (fun _ s => E s.buffer s.host) := by
  cases goal with
  | expr => exact h.joined 6
  | joined limit => exact h.joined limit
  | unary => exact h.unary
  | block kind => exact h.block kind
  | conditional => exact h.conditional

end Respects

/-! ## Blocks that run at once -/

theorem runBegin_holds {host : Host σ} {left : Nat} {body : Block} {span : Span}
    {P Q E : Buffer → σ → Prop}
    (h : Triple (fun p => P p.1 p.2) (host.runBegin left body span) (fun _ p => Q p.1 p.2)
      (fun _ p => E p.1 p.2)) :
    Triple (Holds P) (runBegin host left body span) (fun _ => Holds Q)
      (fun _ s => E s.buffer s.host) := by
  rintro ⟨buffer, scopes, state⟩ hs
  have hbody := h (buffer, state) hs.keeps
  unfold runBegin
  dsimp only
  cases hrun : host.runBegin left body span (buffer, state) with
  | value a p => exact ⟨hs.plain, by simpa [hrun] using hbody⟩
  | error e p => simpa [hrun, Run.Outcome.mapState] using hbody
  | cutOff => trivial

/-- An invariant that any token may be consumed under is kept by `begin` blocks if it is kept by
running them. -/
theorem beginStmt_holds {host : Host σ} {rounds : Nat} {again : Again σ} {I E : Buffer → σ → Prop}
    (hnested : Passes I E (again (.block .beginBlock)))
    (hadvance : ∀ b s, I b s → b.found.token.kind ≠ .endOfInput → I b.next.2 s)
    (hbegin : ∀ body span, Triple (fun p => I p.1 p.2) (host.runBegin rounds body span)
      (fun _ p => I p.1 p.2) (fun _ p => E p.1 p.2)) :
    Triple (fun s => Holds I s ∧ s.buffer.found.token.kind = .kwBegin)
      (beginStmt host rounds again) (fun _ => Holds I) (fun _ s => E s.buffer s.host) :=
  Triple.bind (Q := fun _ => Holds I)
    (fun _ hs => ⟨hs.1.plain, hadvance _ _ hs.1.keeps (by simp [hs.2])⟩)
    fun _ => Triple.bind hnested fun body => runBegin_holds (hbegin body _)

/-- What the listed operations keep as soon as nested parts keep it, every parse keeps. -/
theorem run_keeps {host : Host σ} {I E : Buffer → σ → Prop}
    (h : ∀ bound, (∀ {α : Type} (goal : Goal α), Triple (Before I goal) (run host bound goal)
      (fun _ => Holds I) (fun _ s => E s.buffer s.host)) → Respects host bound (run host bound) I E)
    (bound : Nat) (goal : Goal α) :
    Triple (Before I goal) (run host bound goal) (fun _ => Holds I)
      (fun _ s => E s.buffer s.host) := by
  induction bound generalizing α with
  | zero => exact fun _ _ => trivial
  | succ bound ih =>
      rw [run_succ]
      exact (h bound ih).parse goal

/-- The parse of a whole unit keeps what the listed operations keep. -/
theorem runUnit_keeps {host : Host σ} {I E : Buffer → σ → Prop}
    (h : ∀ bound, (∀ {α : Type} (goal : Goal α), Triple (Before I goal) (run host bound goal)
      (fun _ => Holds I) (fun _ s => E s.buffer s.host)) → Respects host bound (run host bound) I E)
    (bound : Nat) :
    Triple (Holds I) (runUnit host bound)
      (fun _ s => Holds I s ∧ s.buffer.found.token.kind = .endOfInput)
      (fun _ s => E s.buffer s.host) :=
  (h bound (run_keeps h bound)).unit

end TwoPhase.Parser
