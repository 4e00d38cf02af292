import TwoPhase.Proofs.Parser.Nesting

/-!
# Where a `return` may stand

A `return` leaves a sub or a closure, so there has to be one around it.  Which scopes are around a
token can be told from the tokens in front of it: braces open and close them, and a keyword says
what an opening brace belongs to (`Standing`).

* The parser rejects a `return` if and only if its nearest scope, plain blocks apart, is a `begin`
  block or the unit (`runUnit_judges`).
* So no `return` of its own stands in a unit or in a `begin` block that is run.  What a host would
  make of such blocks never shows (`runUnit_congr`).

The parser has scopes of its own, one more than the braces for every function, since parameters have
one too.  That the two agree on where a `return` may stand is what a parse keeps (`Judges`).
-/

namespace TwoPhase

/-! ## Trees -/

/-- A statement has a block: a plain one, or one of `if` or `while`. -/
inductive Stmt.HasBlock : Stmt → Block → Prop where
  | block {body : Block} : HasBlock (.block body) body
  | yes {span : Span} {test : Expr} {body : Block} {no : Option Block} :
      HasBlock (.cond span test body no) body
  | no {span : Span} {test : Expr} {yes body : Block} :
      HasBlock (.cond span test yes (some body)) body
  | loop {span : Span} {test : Expr} {body : Block} : HasBlock (.loop span test body) body

/-- A block has a `return` that is not in a function inside it. -/
inductive Block.Returns : Block → Prop where
  | own {body : Block} {span : Span} {value : Option Expr} (hmem : .ret span value ∈ body.stmts) :
      Returns body
  | inner {body inner : Block} {stmt : Stmt} (hmem : stmt ∈ body.stmts)
      (hblock : stmt.HasBlock inner) (hinner : Returns inner) : Returns body

/-- A statement is or has such a `return`. -/
def Stmt.Returns (stmt : Stmt) : Prop :=
  (∃ span value, stmt = .ret span value) ∨ ∃ body, stmt.HasBlock body ∧ body.Returns

theorem Block.returns_iff {body : Block} : body.Returns ↔ ∃ stmt ∈ body.stmts, stmt.Returns := by
  constructor
  · intro h
    cases h with
    | own hmem => exact ⟨_, hmem, .inl ⟨_, _, rfl⟩⟩
    | inner hmem hblock hinner => exact ⟨_, hmem, .inr ⟨_, hblock, hinner⟩⟩
  · rintro ⟨stmt, hmem, ⟨span, value, rfl⟩ | ⟨inner, hblock, hinner⟩⟩
    · exact .own hmem
    · exact .inner hmem hblock hinner

namespace Stmt

variable {span : Span} {test value : Expr} {body yes : Block} {no : Option Block}

@[simp] theorem not_returns_define {name : String} : ¬(define span name value).Returns := by
  rintro (⟨_, _, h⟩ | ⟨_, h, _⟩) <;> cases h

@[simp] theorem not_returns_assignLexical {ref : LexicalRef} :
    ¬(assignLexical span ref value).Returns := by
  rintro (⟨_, _, h⟩ | ⟨_, h, _⟩) <;> cases h

@[simp] theorem not_returns_assignGlobal {cell : CellRef} :
    ¬(assignGlobal span cell value).Returns := by
  rintro (⟨_, _, h⟩ | ⟨_, h, _⟩) <;> cases h

@[simp] theorem not_returns_expr : ¬(expr value).Returns := by
  rintro (⟨_, _, h⟩ | ⟨_, h, _⟩) <;> cases h

@[simp] theorem returns_block : (block body).Returns ↔ body.Returns := by
  constructor
  · rintro (⟨_, _, h⟩ | ⟨_, h, hbody⟩)
    · cases h
    · cases h
      exact hbody
  · exact fun h => .inr ⟨body, .block, h⟩

@[simp] theorem returns_loop : (loop span test body).Returns ↔ body.Returns := by
  constructor
  · rintro (⟨_, _, h⟩ | ⟨_, h, hbody⟩)
    · cases h
    · cases h
      exact hbody
  · exact fun h => .inr ⟨body, .loop, h⟩

@[simp] theorem returns_cond :
    (cond span test yes no).Returns ↔ yes.Returns ∨ ∃ body, no = some body ∧ body.Returns := by
  constructor
  · rintro (⟨_, _, h⟩ | ⟨body, h, hbody⟩)
    · cases h
    · cases h with
      | yes => exact .inl hbody
      | no => exact .inr ⟨body, rfl, hbody⟩
  · rintro (h | ⟨body, rfl, h⟩)
    · exact .inr ⟨yes, .yes, h⟩
    · exact .inr ⟨body, .no, h⟩

end Stmt

/-! ## Hosts -/

/-- Two hosts do alike, but for the `begin` blocks that need not be alike. -/
structure Host.AgreeOn {σ : Type} (host host' : Host σ) (alike : Block → Prop) : Prop where
  resolves : host'.resolveGlobal = host.resolveGlobal
  installs : host'.installSub = host.installSub
  begins : ∀ left body span, alike body →
    host'.runBegin left body span = host.runBegin left body span

theorem Host.AgreeOn.mono {σ : Type} {host host' : Host σ} {alike alike' : Block → Prop}
    (h : host.AgreeOn host' alike) (himp : ∀ body, alike' body → alike body) :
    host.AgreeOn host' alike' :=
  ⟨h.resolves, h.installs, fun left body span hbody => h.begins left body span (himp body hbody)⟩

theorem Host.AgreeOn.refl {σ : Type} (host : Host σ) (alike : Block → Prop) :
    host.AgreeOn host alike :=
  ⟨rfl, rfl, fun _ _ _ _ => rfl⟩

namespace Parser

open Run (Agrees)

variable {σ α β : Type}

/-! ## Tokens -/

/-- Whether a `return` inside some scopes, innermost first, has a sub or closure to leave: whether
that is what comes first when plain blocks are passed over. -/
def ScopeKind.callable (scopes : List ScopeKind) : Bool :=
  match scopes.find? (· ≠ .block) with
  | some .closure => true
  | some .sub => true
  | _ => false

/-- What can be told of scopes from the tokens in front of a token. -/
structure Standing where
  /-- What an opening brace would belong to. -/
  opens : ScopeKind
  /-- The scopes around the token, innermost first, without that of the unit. -/
  inside : List ScopeKind

namespace Standing

/-- Behind one more token. -/
def after (standing : Standing) (kind : TokenKind) : Standing :=
  match kind with
  | .kwBegin => { standing with opens := .beginBlock }
  | .kwSub => { standing with opens := .sub }
  | .kwFn => { standing with opens := .closure }
  | .braceOpen => ⟨.block, standing.opens :: standing.inside⟩
  | .braceClose => { standing with inside := standing.inside.tail }
  | _ => standing

/-- Tokens of a kind make no difference, and none of them is a `return`. -/
def Neutral (kind : TokenKind) : Prop :=
  kind ≠ .kwReturn ∧ ∀ standing : Standing, standing.after kind = standing

/-- Behind some tokens, the last first. -/
def behind : List Token → Standing
  | [] => ⟨.block, []⟩
  | token :: earlier => (behind earlier).after token.kind

end Standing

/-- Of the `return`s among some tokens, the last first, those stand in no sub or closure that are
rejected, and the last token is the only one that may be. -/
def Judged (rejected : Token → Prop) (tokens : List Token) : Prop :=
  ∀ later keyword earlier, tokens = later ++ keyword :: earlier → keyword.kind = .kwReturn →
    (ScopeKind.callable (Standing.behind earlier).inside = false ↔ later = [] ∧ rejected keyword)

namespace Judged

variable {rejected : Token → Prop} {token : Token} {tokens : List Token}

theorem nil : Judged rejected [] := by
  intro later keyword earlier h
  simp at h

/-- One more token, after tokens of which none was rejected. -/
theorem cons (h : Judged (fun _ => False) tokens)
    (hkind : token.kind = .kwReturn →
      (ScopeKind.callable (Standing.behind tokens).inside = false ↔ rejected token)) :
    Judged rejected (token :: tokens) := by
  intro later keyword earlier htokens hkeyword
  cases later with
  | nil =>
      cases htokens
      simpa using hkind hkeyword
  | cons last later =>
      cases htokens
      simpa using h later keyword earlier rfl hkeyword

/-- What else is known of a last token that is no `return` makes no difference. -/
theorem of_head (h : Judged (fun _ => False) tokens)
    (hhead : ∀ token ∈ tokens.head?, token.kind = .kwReturn → ¬rejected token) :
    Judged rejected tokens := by
  cases tokens with
  | nil => exact .nil
  | cons token tokens =>
      refine cons (fun later keyword earlier htokens => ?_) fun hkind => ?_
      · simpa using h (token :: later) keyword earlier (congrArg (token :: ·) htokens)
      · have hcallable := h [] token tokens rfl hkind
        simpa [hhead token rfl hkind] using hcallable

end Judged

/-! ## Scopes -/

/-- The kinds of scopes. -/
def kinds (scopes : List LexicalScope) : List ScopeKind := scopes.map (·.kind)

/-- The parser goes by its own scopes in the same way. -/
theorem inCallable_eq (scopes : List LexicalScope) :
    inCallable scopes = ScopeKind.callable (kinds scopes) := by
  induction scopes with
  | nil => rfl
  | cons scope outer ih =>
      unfold inCallable ScopeKind.callable kinds
      rw [List.map_cons, List.find?_cons]
      cases scope.kind with
      | block => exact ih
      | _ => rfl

theorem kind_declaring (kind : ScopeKind) (names : List String) :
    (LexicalScope.declaring kind names).kind = kind := by
  unfold LexicalScope.declaring
  rw [← List.foldr_reverse]
  induction names.reverse with
  | nil => rfl
  | cons name names ih => exact ih

theorem kinds_declareIn (name : String) (scopes : List LexicalScope) :
    kinds (declareIn name scopes) = kinds scopes := by
  cases scopes <;> rfl

/-- Nothing but the results of a parse counts. -/
def Anywhere (_ _ : State σ) : Prop := True

instance : Trans (Anywhere (σ := σ)) Anywhere Anywhere := ⟨fun _ _ => trivial⟩

/-- The parser's error for a `return` that may not stand where it does. -/
def Rejects (e : CompileError) (keyword : Token) : Prop :=
  ∃ error, e = .parse error none ∧ error.code.id = "E1005" ∧ error.span = keyword.span

theorem code_of_id {code : Code} (h : code.id = "E1005") : code = .returnOutsideCallable := by
  cases code with
  | returnOutsideCallable => rfl
  | _ => exact absurd h (by decide)

/-- Where an error is raised, those `return`s are rejected that have to be. -/
def Refuses (e : CompileError) (s : State σ) : Prop := Judged (Rejects e) s.buffer.consumed

/-- Two parses come to the same, and the `return`s are rejected that have to be. -/
abbrev Judges (s : State σ) (body body' : Parse σ α) (Q : α → State σ → Prop) : Prop :=
  Agrees Anywhere Refuses s body body' Q

/-- Where the cursor stands, by the tokens and by the scopes of the parser.  No `return` was
rejected so far. -/
structure State.Stands (s : State σ) (standing : Standing) (scopes : List ScopeKind) : Prop where
  behind : Standing.behind s.buffer.consumed = standing
  judged : Judged (fun _ => False) s.buffer.consumed
  kinds : kinds s.scopes = scopes

namespace State.Stands

variable {s : State σ} {standing : Standing} {scopes : List ScopeKind}

theorem start (source : String) (h : σ) : (State.start source h).Stands ⟨.block, []⟩ [] :=
  ⟨rfl, .nil, rfl⟩

theorem lookAhead (h : s.Stands standing scopes) : s.lookAhead.Stands standing scopes :=
  ⟨h.behind, h.judged, h.kinds⟩

theorem next (h : s.Stands standing scopes)
    (hkind : s.buffer.next.1.kind = .kwReturn → ScopeKind.callable standing.inside = true) :
    s.next.Stands (standing.after s.buffer.next.1.kind) scopes := by
  obtain ⟨rfl, hjudged, hkinds⟩ := h
  exact ⟨rfl, hjudged.cons fun hreturn => by simp [hkind hreturn], hkinds⟩

/-- Behind a token of a known kind. -/
theorem taken {kind : TokenKind} (h : s.Stands standing scopes)
    (hkind : s.buffer.next.1.kind = kind) (hreturn : kind ≠ .kwReturn) :
    s.next.Stands (standing.after kind) scopes := by
  have hnext := h.next fun hend => absurd (hkind.symm.trans hend) hreturn
  rwa [hkind] at hnext

end State.Stands

namespace Judges

variable {s t : State σ} {standing : Standing} {scopes : List ScopeKind} {kind : TokenKind} {a : α}
  {body : Parse σ α} {more more' : α → Parse σ β} {Q : β → State σ → Prop}

/-! ## Rules -/

theorem gives {Q : α → State σ → Prop} (h : Q a s) : Judges s (pure a) (pure a) Q :=
  .pure trivial h

theorem imp {body' : Parse σ α} {Q Q' : α → State σ → Prop} (h : Judges s body body' Q)
    (himp : ∀ a t, Q a t → Q' a t) : Judges s body body' Q' :=
  h.weaken (fun _ h => h) (fun a t _ => himp a t) fun _ _ _ h => h

/-- What is done behind a part that is known. -/
theorem after (hbody : body s = .value a t) (hmore : Judges t (more a) (more' a) Q) :
    Judges s (body >>= more) (body >>= more') Q := by
  refine Agrees.bind (Q := fun b u => b = a ∧ u = t)
    (.of_ends rfl (fun b u hrun => ?_) (fun e u hrun => ?_)) ?_
  · cases hbody.symm.trans hrun
    exact ⟨trivial, rfl, rfl⟩
  · cases hbody.symm.trans hrun
  · rintro _ _ _ ⟨rfl, rfl⟩
    exact hmore

theorem look {next next' : Token → Parse σ β}
    (hnext : Judges s.lookAhead (next s.buffer.next.1) (next' s.buffer.next.1) Q) :
    Judges s (peek >>= next) (peek >>= next') Q :=
  after (peek_apply s) hnext

theorem take {next next' : Token → Parse σ β}
    (hnext : Judges s.next (next s.buffer.next.1) (next' s.buffer.next.1) Q) :
    Judges s (advance >>= next) (advance >>= next') Q :=
  after (advance_apply s) hnext

/-- The token that was looked at. -/
theorem takeSeen {next next' : Token → Parse σ β}
    (hnext : Judges s.next (next s.buffer.next.1) (next' s.buffer.next.1) Q) :
    Judges s.lookAhead (advance >>= next) (advance >>= next') Q := by
  refine take ?_
  rwa [State.next_lookAhead, State.buffer_lookAhead, Buffer.next_lookAhead]

theorem checked {next next' : Bool → Parse σ β}
    (hnext : Judges s.lookAhead (next (s.buffer.next.1.kind == kind))
      (next' (s.buffer.next.1.kind == kind)) Q) :
    Judges s (check kind >>= next) (check kind >>= next') Q :=
  after (check_apply s kind) hnext

theorem eaten {next next' : Bool → Parse σ β}
    (htrue : s.buffer.next.1.kind = kind → Judges s.next (next true) (next' true) Q)
    (hfalse : Judges s.lookAhead (next false) (next' false) Q) :
    Judges s (eat kind >>= next) (eat kind >>= next') Q := by
  by_cases hkind : s.buffer.next.1.kind = kind
  · exact after (t := s.next) (by rw [eat_apply, if_pos hkind]) (htrue hkind)
  · exact after (t := s.lookAhead) (by rw [eat_apply, if_neg hkind]) hfalse

/-- Any other error leaves all `return`s alone. -/
theorem fails (hs : s.Stands standing scopes) {fault : ParseFault} {span : Span}
    (hfault : fault.code ≠ .returnOutsideCallable) {Q : α → State σ → Prop} :
    Judges s (fail fault span) (fail fault span) Q := by
  refine .throw trivial (hs.judged.of_head fun token _ _ hrejects => ?_)
  obtain ⟨_, ⟨⟩, hid, -⟩ := hrejects
  exact hfault (code_of_id hid)

/-- So does a token where another was expected. -/
theorem misplaced (hs : s.Stands standing scopes) {token : Token} {fault : String → ParseFault}
    (hfault : ∀ found, (fault found).code ≠ .returnOutsideCallable) {span : Span}
    {Q : α → State σ → Prop} :
    Judges s (fail (Parser.misplaced token fault) span)
      (fail (Parser.misplaced token fault) span) Q := by
  refine fails hs ?_
  unfold Parser.misplaced
  split
  · rename_i error _
    cases error <;> simp [ParseFault.code]
  · exact hfault _

theorem expected {next next' : Token → Parse σ β} (hs : s.Stands standing scopes)
    (hreturn : kind ≠ .kwReturn)
    (hnext : s.next.Stands (standing.after kind) scopes →
      Judges s.next (next s.buffer.next.1) (next' s.buffer.next.1) Q) :
    Judges s (expect kind >>= next) (expect kind >>= next') Q := by
  by_cases hkind : s.buffer.next.1.kind = kind
  · exact after (expect_apply hkind) (hnext (hs.taken hkind hreturn))
  · have hfail : Judges s (expect kind) (expect kind) fun _ _ => False := by
      refine look ?_
      rw [if_neg hkind]
      exact misplaced hs.lookAhead fun _ => by simp [ParseFault.code]
    exact hfail.bind fun _ _ _ hfalse => hfalse.elim

/-- A comma, unless the list ends. -/
theorem separated {next next' : Parse σ β} (hs : s.Stands standing scopes)
    (hnext : ∀ t, t.Stands standing scopes → Judges t next next' Q) :
    Judges s
      (do
        if !(← check kind) then let _ ← expect .comma
        next)
      (do
        if !(← check kind) then let _ ← expect .comma
        next') Q := by
  refine checked ?_
  cases s.buffer.next.1.kind == kind with
  | true => exact hnext _ hs.lookAhead
  | false => exact expected hs.lookAhead (by simp) fun ht => hnext _ ht

theorem identified {next next' : String × Span → Parse σ β} (hs : s.Stands standing scopes)
    (hnext : ∀ found, s.next.Stands standing scopes →
      Judges s.next (next found) (next' found) Q) :
    Judges s (expectIdent >>= next) (expectIdent >>= next') Q := by
  have hident : Judges s expectIdent expectIdent fun _ t => t = s.next ∧
      s.next.Stands standing scopes := by
    refine look ?_
    split
    · rename_i name hkind
      exact takeSeen (gives ⟨rfl, hs.taken hkind (by simp)⟩)
    · exact misplaced hs.lookAhead fun _ => by simp [ParseFault.code]
  refine hident.bind fun found t _ ht => ?_
  obtain ⟨rfl, ht⟩ := ht
  exact hnext found ht

theorem named {next next' : String → Parse σ β} (hs : s.Stands standing scopes)
    (hnext : ∀ name, s.next.Stands standing scopes → Judges s.next (next name) (next' name) Q) :
    Judges s (expectLexicalName >>= next) (expectLexicalName >>= next') Q := by
  have hname : Judges s expectLexicalName expectLexicalName fun _ t => t = s.next ∧
      s.next.Stands standing scopes := by
    refine identified hs fun found ht => ?_
    obtain ⟨name, span⟩ := found
    dsimp only
    split
    · exact fails ht (by simp [ParseFault.code])
    · exact gives ⟨rfl, ht⟩
  refine hname.bind fun name t _ ht => ?_
  obtain ⟨rfl, ht⟩ := ht
  exact hnext name ht

/-- The end of a statement. -/
theorem terminated {next next' : Parse σ β} (hs : s.Stands standing scopes)
    (hnext : ∀ t, t.Stands standing scopes → Judges t next next' Q) :
    Judges s
      (do
        expectTerminator
        next)
      (do
        expectTerminator
        next') Q := by
  have hend : Judges s expectTerminator expectTerminator fun _ t => t.Stands standing scopes := by
    refine eaten (fun hkind => gives (hs.taken hkind (by simp))) (look ?_)
    split
    · exact gives hs.lookAhead
    · exact gives hs.lookAhead
    · exact misplaced hs.lookAhead fun _ => by simp [ParseFault.code]
  exact hend.bind fun _ t _ ht => hnext t ht

/-- What is parsed in a scope of its own stands in it. -/
theorem inScope {scope : ScopeKind} {names : List String} {body' : Parse σ α} {final : Standing}
    {P : α → Buffer → Prop} (hs : s.Stands standing scopes)
    (hbody : ∀ u : State σ, u.buffer = s.buffer → u.Stands standing (scope :: scopes) →
      Judges u body body' fun a t => t.Stands final (scope :: scopes) ∧ P a t.buffer) :
    Judges s (inScope scope names body) (Parser.inScope scope names body') fun a t =>
      t.Stands final scopes ∧ P a t.buffer := by
  have hkinds : kinds (.declaring scope names :: s.scopes) = scope :: scopes := by
    rw [kinds, List.map_cons, kind_declaring, ← kinds, hs.kinds]
  let entered : State σ := { s with scopes := .declaring scope names :: s.scopes }
  have hentered : entered.Stands standing (scope :: scopes) := ⟨hs.behind, hs.judged, hkinds⟩
  refine (hbody entered rfl hentered).between rfl (fun _ t _ ht => ⟨trivial, ?_⟩)
    fun _ _ _ he => ⟨trivial, he⟩
  obtain ⟨⟨hbehind, hjudged, hkinds⟩, ha⟩ := ht
  exact ⟨⟨hbehind, hjudged, List.map_tail.trans (congrArg List.tail hkinds)⟩, ha⟩

end Judges

/-! ## Parts of the grammar -/

/-- In front of a statement or an expression, where tokens and scopes agree on `return`. -/
structure State.Ready (s : State σ) (inside scopes : List ScopeKind) : Prop
    extends s.Stands ⟨.block, inside⟩ scopes where
  callable : ScopeKind.callable inside = ScopeKind.callable scopes

theorem State.Ready.lookAhead {s : State σ} {inside scopes : List ScopeKind}
    (h : s.Ready inside scopes) : s.lookAhead.Ready inside scopes :=
  ⟨h.toStands.lookAhead, h.callable⟩

theorem State.Ready.neutral {s : State σ} {inside scopes : List ScopeKind}
    (h : s.Ready inside scopes) (hkind : Standing.Neutral s.buffer.next.1.kind) :
    s.next.Ready inside scopes := by
  have hnext := h.toStands.next fun hreturn => absurd hreturn hkind.1
  rw [hkind.2] at hnext
  exact ⟨hnext, h.callable⟩

/-- What is known of a block that was parsed in some scopes: it was closed, and it has no `return`
that may not stand there. -/
structure Stood (kind : ScopeKind) (scopes : List ScopeKind) (body : Block) (b : Buffer) :
    Prop where
  closed : ∀ token ∈ b.consumed.head?, token.kind = .braceClose
  returns : body.Returns → ScopeKind.callable (kind :: scopes) = true

/-- Behind a statement that has no `return` that may not stand there. -/
def Passed (inside scopes : List ScopeKind) (stmt : Stmt) (t : State σ) : Prop :=
  t.Ready inside scopes ∧ (stmt.Returns → ScopeKind.callable scopes = true)

/-- Where the cursor stands in front of a part. -/
def Goal.Before (inside scopes : List ScopeKind) (s : State σ) : {α : Type} → Goal α → Prop
  | _, .expr => s.Ready inside scopes
  | _, .joined _ => s.Ready inside scopes
  | _, .unary => s.Ready inside scopes
  | _, .block kind => ∃ opens, s.Stands ⟨opens, inside⟩ scopes ∧
      ScopeKind.callable (opens :: inside) = ScopeKind.callable (kind :: scopes)
  | _, .conditional => s.next.Ready inside scopes

/-- What is known behind a part. -/
def Goal.After (inside scopes : List ScopeKind) (t : State σ) : {α : Type} → Goal α → α → Prop
  | _, .expr, _ => t.Ready inside scopes
  | _, .joined _, _ => t.Ready inside scopes
  | _, .unary, _ => t.Ready inside scopes
  | _, .block kind, body => t.Stands ⟨.block, inside⟩ scopes ∧ Stood kind scopes body t.buffer
  | _, .conditional, stmt => Passed inside scopes stmt t

/-- The scopes around the cursor when the statements have ended. -/
def Level.around (level : Level) (inside : List ScopeKind) : List ScopeKind :=
  match level with
  | .unit => inside
  | .braced _ => inside.tail

/-- Behind a round of the loop over statements. -/
def Level.Passed (level : Level) (inside scopes : List ScopeKind)
    (step : Run.Step (List Stmt) Block) (t : State σ) : Prop :=
  match step with
  | .next more => t.Ready inside scopes ∧
      ∀ stmt ∈ more, stmt.Returns → ScopeKind.callable scopes = true
  | .done body => t.Stands ⟨.block, level.around inside⟩ scopes ∧
      (body.Returns → ScopeKind.callable scopes = true) ∧
      (level ≠ .unit → ∀ token ∈ t.buffer.consumed.head?, token.kind = .braceClose)

namespace Judges

/-- Ways to parse what may nest that come to the same and reject the `return`s they should. -/
def Parts (again again' : Again σ) : Prop :=
  ∀ {α : Type} (goal : Goal α) {inside scopes : List ScopeKind} {s : State σ},
    goal.Before inside scopes s →
      Judges s (again goal) (again' goal) fun a t => goal.After inside scopes t a

namespace Parts

variable {host host' : Host σ} {rounds : Nat} {again again' : Again σ} {s : State σ}
  {inside scopes : List ScopeKind}

/-! ### Expressions -/

theorem literal_neutral {token : Token} {e : Expr} (h : literal? token = some e) :
    Standing.Neutral token.kind := by
  obtain ⟨kind, span⟩ := token
  cases kind with
  | int | str | kwTrue | kwFalse | kwNil => exact ⟨by simp, fun _ => rfl⟩
  | _ => cases h

theorem operator_neutral {kind : TokenKind} {op : BinaryOp} (h : operator? kind = some op) :
    Standing.Neutral kind := by
  cases operator?_eq_some h
  cases op <;> exact ⟨by simp [BinaryOp.kind], fun _ => rfl⟩

theorem parameters {standing : Standing} (hs : s.Stands standing scopes) :
    Judges s (parameters rounds) (parameters rounds) fun _ t => t.Stands standing scopes := by
  rw [parameters_eq]
  refine expected hs (by simp) fun hs => ?_
  refine .iterate (J := fun _ t => t.Stands standing scopes) (fun names t ht => ?_) rounds [] hs
  refine look ?_
  split
  · rename_i hkind
    exact takeSeen (gives (ht.taken hkind (by simp)))
  · exact fails ht.lookAhead (by simp [ParseFault.code])
  · exact named ht.lookAhead fun name ht => separated ht fun t ht => gives ht

variable (h : Parts again again')

include h

theorem expr (hs : s.Ready inside scopes) :
    Judges s (again .expr) (again' .expr) fun _ t => t.Ready inside scopes :=
  h .expr hs

/-- A block whose brace was announced. -/
theorem innerBlock {opens kind : ScopeKind} (hs : s.Stands ⟨opens, inside⟩ scopes)
    (hkind : ScopeKind.callable (opens :: inside) = ScopeKind.callable (kind :: scopes)) :
    Judges s (again (.block kind)) (again' (.block kind)) fun body t =>
      t.Stands ⟨.block, inside⟩ scopes ∧ Stood kind scopes body t.buffer :=
  h (.block kind) ⟨opens, hs, hkind⟩

/-- A plain block changes nothing about where a `return` may stand. -/
theorem plainBlock (hs : s.Ready inside scopes) :
    Judges s (again (.block .block)) (again' (.block .block)) fun body t =>
      t.Ready inside scopes ∧ (body.Returns → ScopeKind.callable scopes = true) :=
  Judges.imp (h (.block .block) ⟨.block, hs.toStands, hs.callable⟩) fun _ _ ht =>
    ⟨⟨ht.1, hs.callable⟩, ht.2.returns⟩

theorem delimited {opening closing : TokenKind} (delimiter : Char)
    (hopening : Standing.Neutral opening) (hclosing : Standing.Neutral closing)
    (hs : s.Ready inside scopes) :
    Judges s (delimited rounds again opening closing delimiter)
      (delimited rounds again' opening closing delimiter) fun _ t => t.Ready inside scopes := by
  rw [delimited_eq, delimited_eq]
  refine expected hs.toStands hopening.1 fun ht => ?_
  rw [hopening.2] at ht
  refine .iterate (J := fun _ t => t.Ready inside scopes) (fun items t ht => ?_) rounds []
    ⟨ht, hs.callable⟩
  refine look ?_
  split
  · rename_i hkind
    exact takeSeen (gives (ht.neutral (hkind ▸ hclosing)))
  · split
    · exact (fails ht.toStands.lookAhead (by simp [ParseFault.code]) (Q := fun _ _ => False)).bind
        fun _ _ _ hfalse => hfalse.elim
    · refine (h.expr ht.lookAhead).bind fun item t _ ht => ?_
      exact separated ht.toStands fun t ht => gives ⟨ht, hs.callable⟩

/-- A function behind its keyword, and perhaps its name. -/
theorem function (name : Option String) {kind : ScopeKind} (start : Span)
    (hkind : ∀ scopes, ScopeKind.callable (kind :: scopes) = true)
    (hs : s.Stands ⟨kind, inside⟩ scopes) :
    Judges s (function rounds again name kind start) (function rounds again' name kind start)
      fun _ t => t.Stands ⟨.block, inside⟩ scopes := by
  refine (parameters hs).bind fun params t _ ht => ?_
  have hbody : Judges t (Parser.inScope kind params (again (.block .block)))
      (Parser.inScope kind params (again' (.block .block))) fun _ t =>
        t.Stands ⟨.block, inside⟩ scopes ∧ True := by
    refine inScope (P := fun _ _ => True) ht fun u _ hu => ?_
    -- the body has a brace of its own and no scope kind, the parameters have it the other way round
    have hcallable : ScopeKind.callable (kind :: inside)
        = ScopeKind.callable (.block :: kind :: scopes) :=
      (hkind inside).trans (hkind scopes).symm
    exact (h.innerBlock hu hcallable).imp fun _ _ ht => ⟨ht.1, trivial⟩
  exact hbody.bind fun body t _ ht => gives ht.1

variable (hhosts : host.AgreeOn host' fun body => ¬body.Returns)

include hhosts

omit h in
theorem resolved (name : String) (span : Span) (hs : s.Ready inside scopes) :
    Judges s (resolve host name span) (resolve host' name span) fun _ t =>
      t.buffer = s.buffer ∧ t.Ready inside scopes := by
  have hsame : resolve host' name span = resolve host name span := by
    unfold resolve
    rw [hhosts.resolves]
  rw [hsame]
  obtain ⟨⟨hbehind, hjudged, hkinds⟩, hcallable⟩ := hs
  obtain ⟨buffer, scopes, s⟩ := s
  unfold resolve
  refine .modifyGet trivial ?_
  dsimp only
  split <;> exact ⟨rfl, ⟨hbehind, hjudged, hkinds⟩, hcallable⟩

theorem primary (hs : s.Ready inside scopes) :
    Judges s (primary host rounds again) (primary host' rounds again') fun _ t =>
      t.Ready inside scopes := by
  refine look ?_
  split
  · rename_i e hliteral
    exact takeSeen (gives (hs.neutral (literal_neutral hliteral)))
  · dsimp only
    split
    · rename_i name hkind
      refine (resolved hhosts name _ hs.lookAhead).bind fun e t _ ht => take (gives ?_)
      obtain ⟨hbuffer, ht⟩ := ht
      have hident : t.buffer.next.1.kind = .ident name := by
        rw [hbuffer, State.buffer_lookAhead, Buffer.next_lookAhead, hkind]
      exact ⟨ht.taken hident (by simp), hs.callable⟩
    · rename_i hkind
      refine takeSeen ?_
      refine (h.expr ⟨hs.taken hkind (by simp), hs.callable⟩).bind fun e t _ ht => ?_
      exact expected ht.toStands (by simp) fun ht => gives ⟨ht, hs.callable⟩
    · exact (h.delimited '[' ⟨by simp, fun _ => rfl⟩ ⟨by simp, fun _ => rfl⟩ hs.lookAhead).bind
        fun found t _ ht => gives ht
    · rename_i hkind
      refine takeSeen ?_
      refine (h.function none _ (fun _ => rfl) (hs.taken hkind (by simp))).bind fun f t _ ht => ?_
      exact gives ⟨ht, hs.callable⟩
    · exact misplaced hs.toStands.lookAhead fun _ => by simp [ParseFault.code]

theorem call (hs : s.Ready inside scopes) :
    Judges s (call host rounds again) (call host' rounds again') fun _ t =>
      t.Ready inside scopes := by
  rw [call_eq, call_eq]
  refine (h.primary hhosts hs).bind fun callee t _ ht => ?_
  refine .iterate (J := fun _ t => t.Ready inside scopes) (fun callee t ht => ?_) rounds callee ht
  refine checked ?_
  cases t.buffer.next.1.kind == .parenOpen with
  | false => exact gives ht.lookAhead
  | true =>
      exact (h.delimited '(' ⟨by simp, fun _ => rfl⟩ ⟨by simp, fun _ => rfl⟩ ht.lookAhead).bind
        fun found t _ ht => gives ht

theorem unary (hs : s.Ready inside scopes) :
    Judges s (unary host rounds again) (unary host' rounds again') fun _ t =>
      t.Ready inside scopes := by
  have hoperator (op : UnaryOp) (ht : s.next.Ready inside scopes) :
      Judges s.lookAhead (do
        let _ ← advance
        let operand ← again .unary
        return .unary (s.buffer.next.1.span.merge operand.span) op operand : Parse σ Expr)
      (do
        let _ ← advance
        let operand ← again' .unary
        return .unary (s.buffer.next.1.span.merge operand.span) op operand : Parse σ Expr)
      fun _ t => t.Ready inside scopes := by
    refine takeSeen ?_
    exact Agrees.bind (h .unary ht) fun operand t _ ht => gives ht
  refine look ?_
  dsimp only
  split
  · rename_i hkind
    exact hoperator .neg ⟨hs.taken hkind (by simp), hs.callable⟩
  · rename_i hkind
    exact hoperator .not ⟨hs.taken hkind (by simp), hs.callable⟩
  · exact h.call hhosts hs.lookAhead

theorem joined (limit : Nat) (hs : s.Ready inside scopes) :
    Judges s (joined host rounds again limit) (joined host' rounds again' limit) fun _ t =>
      t.Ready inside scopes := by
  rw [joined_eq, joined_eq]
  refine (h.unary hhosts hs).bind fun left t _ ht => ?_
  refine .iterate (J := fun _ t => t.Ready inside scopes) (fun left t ht => ?_) rounds left ht
  refine look ?_
  split
  · exact gives ht.lookAhead
  · rename_i op hop
    split
    · exact gives ht.lookAhead
    · refine takeSeen ?_
      have ht : t.next.Ready inside scopes := ht.neutral (operator_neutral hop)
      exact Agrees.bind (h (.joined (looseness op)) ht) fun right u _ hu => gives hu

/-! ### Statements -/

omit hhosts in
theorem condition (hs : s.Ready inside scopes) :
    Judges s (condition again) (condition again') fun _ t => t.Ready inside scopes := by
  refine expected hs.toStands (by simp) fun ht => ?_
  refine (h.expr ⟨ht, hs.callable⟩).bind fun test t _ ht => ?_
  exact expected ht.toStands (by simp) fun ht => gives ⟨ht, hs.callable⟩

omit hhosts in
theorem letStmt (hs : s.next.Ready inside scopes) :
    Judges s (letStmt again) (letStmt again') (Passed inside scopes) := by
  refine take (named hs.toStands fun name ht => expected ht (by simp) fun ht => ?_)
  refine (h.expr ⟨ht, hs.callable⟩).bind fun value t _ ht => terminated ht.toStands fun u hu => ?_
  refine after (t := { u with scopes := declareIn name u.scopes }) rfl ?_
  refine gives ⟨⟨?_, hs.callable⟩, ?_⟩
  · exact ⟨hu.behind, hu.judged, (kinds_declareIn name u.scopes).trans hu.kinds⟩
  · simp

omit hhosts in
theorem returned (keyword : Span) (hs : s.Ready inside scopes)
    (hmay : ScopeKind.callable scopes = true) :
    Judges s (returned again keyword) (returned again' keyword)
      (Passed inside scopes) := by
  have hbare : Judges s.lookAhead
      (do
        expectTerminator
        return Stmt.ret keyword none)
      (do
        expectTerminator
        return Stmt.ret keyword none) (Passed inside scopes) :=
    terminated hs.toStands.lookAhead fun t ht => gives ⟨⟨ht, hs.callable⟩, fun _ => hmay⟩
  refine look ?_
  split
  · exact hbare
  · exact hbare
  · exact hbare
  · refine (h.expr hs.lookAhead).bind fun value t _ ht => ?_
    exact terminated ht.toStands fun u hu => gives ⟨⟨hu, hs.callable⟩, fun _ => hmay⟩

omit hhosts in
theorem returnStmt (hs : s.Ready inside scopes) (hkind : s.buffer.next.1.kind = .kwReturn) :
    Judges s (returnStmt again) (returnStmt again') (Passed inside scopes) := by
  have hinside : inCallable s.scopes = ScopeKind.callable inside := by
    rw [inCallable_eq, hs.kinds, hs.callable]
  refine take (after (t := s.next) rfl ?_)
  cases hmay : inCallable s.next.scopes with
  | true =>
      have hmay : ScopeKind.callable inside = true := hinside.symm.trans hmay
      have hnext := hs.toStands.next fun _ => hmay
      rw [hkind] at hnext
      exact h.returned _ ⟨hnext, hs.callable⟩ (hs.callable ▸ hmay)
  | false =>
      have hmay : ScopeKind.callable inside = false := hinside.symm.trans hmay
      refine Agrees.bind (Q := fun _ _ => False) (.throw trivial ?_) fun _ _ _ hfalse => hfalse.elim
      refine hs.judged.cons fun _ => ?_
      rw [hs.behind]
      exact iff_of_true hmay ⟨_, rfl, rfl, rfl⟩

omit hhosts in
theorem conditional (hs : s.next.Ready inside scopes) :
    Judges s (conditional again) (conditional again') (Passed inside scopes) := by
  refine take ((h.condition hs).bind fun test t _ ht => ?_)
  refine (h.plainBlock ht).bind fun yes u _ hu => ?_
  obtain ⟨hu, hyes⟩ := hu
  refine eaten (fun hkind => checked ?_) (gives ⟨hu.lookAhead, by simpa using hyes⟩)
  have hnext : u.next.Ready inside scopes := ⟨hu.taken hkind (by simp), hs.callable⟩
  -- whatever the `else` has, its `return`s stand where those of the conditional do
  have hend : ∀ (no : Block) {v : State σ}, v.Ready inside scopes →
      (no.Returns → ScopeKind.callable scopes = true) → ∀ span,
      v.Ready inside scopes ∧
        ((Stmt.cond span test yes (some no)).Returns → ScopeKind.callable scopes = true) := by
    intro no v hv hno span
    refine ⟨hv, fun hreturns => ?_⟩
    rcases Stmt.returns_cond.1 hreturns with hreturns | ⟨_, ⟨⟩, hreturns⟩
    · exact hyes hreturns
    · exact hno hreturns
  cases hif : u.next.buffer.next.1.kind == .kwIf with
  | true =>
      have hnested : Judges u.next.lookAhead (Parser.inScope .block [] (again .conditional))
          (Parser.inScope .block [] (again' .conditional)) fun nested t =>
            t.Stands ⟨.block, inside⟩ scopes ∧
              (nested.Returns → ScopeKind.callable scopes = true) := by
        refine inScope (P := fun (nested : Stmt) _ => nested.Returns →
          ScopeKind.callable scopes = true) hnext.toStands.lookAhead fun v hbuffer hv => ?_
        have hkind : v.buffer.next.1.kind = .kwIf := by
          rw [hbuffer, State.buffer_lookAhead, Buffer.next_lookAhead]
          exact eq_of_beq hif
        exact Judges.imp (h .conditional ⟨hv.taken hkind (by simp), hs.callable⟩) fun _ _ ht =>
          ⟨ht.1.toStands, ht.2⟩
      refine Agrees.bind hnested fun nested v _ hv => gives ?_
      refine hend (.mk nested.span [nested]) ⟨hv.1, hs.callable⟩ (fun hreturns => ?_) _
      obtain ⟨stmt, hmem, hreturns⟩ := Block.returns_iff.1 hreturns
      cases List.mem_singleton.1 hmem
      exact hv.2 hreturns
  | false =>
      refine (h.plainBlock hnext.lookAhead).bind fun no v _ hv => gives ?_
      exact hend no hv.1 hv.2 _

omit hhosts in
theorem whileStmt (hs : s.next.Ready inside scopes) :
    Judges s (whileStmt again) (whileStmt again') (Passed inside scopes) := by
  refine take ((h.condition hs).bind fun test t _ ht => ?_)
  refine (h.plainBlock ht).bind fun body u _ hu => ?_
  exact gives ⟨hu.1, by simpa using hu.2⟩

omit hhosts in
theorem exprStmt (hs : s.Ready inside scopes) :
    Judges s (exprStmt again) (exprStmt again') (Passed inside scopes) := by
  refine (h.expr hs).bind fun target t _ ht => eaten (fun hkind => ?_) ?_
  · refine (h.expr ⟨ht.taken hkind (by simp), hs.callable⟩).bind fun value u _ hu => ?_
    dsimp only
    split
    · exact terminated hu.toStands fun v hv => gives ⟨⟨hv, hs.callable⟩, by simp⟩
    · exact terminated hu.toStands fun v hv => gives ⟨⟨hv, hs.callable⟩, by simp⟩
    · exact fails hu.toStands (by simp [ParseFault.code])
  · exact terminated ht.toStands.lookAhead fun v hv => gives ⟨⟨hv, hs.callable⟩, by simp⟩

variable (hsplices : host.Splices)

include hsplices in
/-- A body of a `begin` block has no `return` of its own, so the hosts do alike. -/
theorem beginStmt (hs : s.next.Stands ⟨.beginBlock, inside⟩ scopes)
    (hcallable : ScopeKind.callable inside = ScopeKind.callable scopes) :
    Judges s (beginStmt host rounds again) (beginStmt host' rounds again') fun _ t =>
      t.Ready inside scopes := by
  refine take ((h.innerBlock hs rfl).bind fun body t _ ht => ?_)
  obtain ⟨ht, hbody⟩ := ht
  obtain ⟨buffer, scopes, x⟩ := t
  have hnone : ¬body.Returns := fun hreturns => by cases hbody.returns hreturns
  have hsame := hhosts.begins rounds body (s.buffer.next.1.span.merge body.span) hnone
  have hconsumed : ∀ {result c y}, (host.runBegin rounds body
      (s.buffer.next.1.span.merge body.span)).run? (buffer, x) = some (result, (c, y)) →
      c.consumed = buffer.consumed := fun hrun => (hsplices hrun).before.2.2
  simp only [Agrees, runBegin, hsame]
  cases hrun : host.runBegin rounds body (s.buffer.next.1.span.merge body.span) (buffer, x) with
  | value a q =>
      have hq : q.1.consumed = buffer.consumed := hconsumed (Run.run?_eq_ok.2 hrun)
      refine ⟨trivial, trivial, ⟨?_, ?_, ht.kinds⟩, hcallable⟩
      · exact (congrArg Standing.behind hq).trans ht.behind
      · exact (congrArg (Judged fun _ => False) hq).mpr ht.judged
  | error e q =>
      have hq : q.1.consumed = buffer.consumed := hconsumed (Run.run?_eq_error.2 hrun)
      refine ⟨trivial, trivial, (congrArg (Judged _) hq).mpr (ht.judged.of_head ?_)⟩
      -- the last token is the brace that closes the block
      intro token hmem hreturn
      cases (hbody.closed token hmem).symm.trans hreturn
  | cutOff => exact ⟨trivial, trivial⟩

theorem subStmt (hs : s.next.Stands ⟨.sub, inside⟩ scopes)
    (hcallable : ScopeKind.callable inside = ScopeKind.callable scopes) :
    Judges s (subStmt host rounds again) (subStmt host' rounds again') fun _ t =>
      t.Ready inside scopes := by
  refine take (identified hs fun found ht => ?_)
  refine (h.function _ _ (fun _ => rfl) ht).bind fun f t _ ht => ?_
  have hsame : installSub host' found.1 f = installSub host found.1 f := by
    unfold installSub
    rw [hhosts.installs]
  rw [hsame]
  exact .update trivial ⟨⟨ht.behind, ht.judged, ht.kinds⟩, hcallable⟩

include hsplices

theorem statement (hs : s.Ready inside scopes) :
    Judges s (statement host rounds again) (statement host' rounds again') fun stmt t =>
      t.Ready inside scopes ∧
        ∀ found : Stmt, stmt = some found → found.Returns → ScopeKind.callable scopes = true := by
  have hnone : ∀ {body body' : Parse σ Unit},
      Judges s.lookAhead body body' (fun _ t => t.Ready inside scopes) →
      Judges s.lookAhead (body >>= fun _ => pure none) (body' >>= fun _ => pure none)
        fun stmt t => t.Ready inside scopes ∧
          ∀ found : Stmt, stmt = some found → found.Returns → ScopeKind.callable scopes = true :=
    fun hbody => hbody.bind fun _ t _ ht => gives ⟨ht, by simp⟩
  have hsome : ∀ {body body' : Parse σ Stmt},
      Judges s.lookAhead body body' (Passed inside scopes) →
      Judges s.lookAhead (some <$> body) (some <$> body') fun stmt t => t.Ready inside scopes ∧
        ∀ found : Stmt, stmt = some found → found.Returns → ScopeKind.callable scopes = true := by
    intro body body' hbody
    rw [map_eq_pure_bind, map_eq_pure_bind]
    refine hbody.bind fun stmt t _ ht => gives ⟨ht.1, ?_⟩
    rintro _ ⟨⟩
    exact ht.2
  have htaken {kind : TokenKind} (hkind : s.buffer.next.1.kind = kind)
      (hreturn : kind ≠ .kwReturn) :
      s.lookAhead.next.Stands (Standing.after ⟨.block, inside⟩ kind) scopes := by
    rw [State.next_lookAhead]
    exact hs.taken hkind hreturn
  have hneutral {kind : TokenKind} (hkind : s.buffer.next.1.kind = kind)
      (h : Standing.Neutral kind) : s.lookAhead.next.Ready inside scopes := by
    rw [State.next_lookAhead]
    exact hs.neutral (hkind ▸ h)
  refine look ?_
  split
  · rename_i hkind
    exact take (gives ⟨hneutral hkind ⟨by simp, fun _ => rfl⟩, by simp⟩)
  · rename_i hkind
    exact hnone (h.beginStmt hhosts hsplices (htaken hkind (by simp)) hs.callable)
  · rename_i hkind
    exact hnone (h.subStmt hhosts (htaken hkind (by simp)) hs.callable)
  · rename_i hkind
    exact hsome (h.letStmt (hneutral hkind ⟨by simp, fun _ => rfl⟩))
  · rename_i hkind
    refine hsome (h.returnStmt hs.lookAhead ?_)
    rw [State.buffer_lookAhead, Buffer.next_lookAhead, hkind]
  · rename_i hkind
    exact hsome (h.conditional (hneutral hkind ⟨by simp, fun _ => rfl⟩))
  · rename_i hkind
    exact hsome (h.whileStmt (hneutral hkind ⟨by simp, fun _ => rfl⟩))
  · rw [blockStmt_eq, blockStmt_eq]
    exact hsome ((h.plainBlock hs.lookAhead).bind fun body t _ ht =>
      gives ⟨ht.1, fun hreturns => ht.2 (Stmt.returns_block.1 hreturns)⟩)
  · exact hsome (h.exprStmt hs.lookAhead)

/-! ### Blocks -/

/-- A round reads one more statement, or what ends the loop. -/
theorem round (level : Level) (stmts : List Stmt) (hs : s.Ready inside scopes)
    (hstmts : ∀ stmt ∈ stmts, stmt.Returns → ScopeKind.callable scopes = true) :
    Judges s (round host rounds again level stmts) (round host' rounds again' level stmts)
      (level.Passed inside scopes) := by
  have honeMore : Judges s.lookAhead
      (do
        let stmt ← Parser.statement host rounds again
        return .next (stmt.toList ++ stmts) : Parse σ (Run.Step (List Stmt) Block))
      (do
        let stmt ← Parser.statement host' rounds again'
        return .next (stmt.toList ++ stmts) : Parse σ (Run.Step (List Stmt) Block))
      (level.Passed inside scopes) := by
    refine (h.statement hhosts hsplices hs.lookAhead).bind fun stmt t _ ht => gives ⟨ht.1, ?_⟩
    intro other hmem
    rcases List.mem_append.1 hmem with hmem | hmem
    · exact ht.2 other (Option.mem_toList.1 hmem)
    · exact hstmts other hmem
  have hbody (span : Span) :
      (Block.mk span stmts.reverse).Returns → ScopeKind.callable scopes = true := fun hreturns => by
    obtain ⟨stmt, hmem, hreturns⟩ := Block.returns_iff.1 hreturns
    exact hstmts stmt (List.mem_reverse.1 hmem) hreturns
  cases level with
  | unit =>
      refine look ?_
      split
      · exact gives ⟨hs.toStands.lookAhead, hbody _, fun hne => absurd rfl hne⟩
      · exact misplaced hs.toStands.lookAhead fun _ => by simp [ParseFault.code]
      · exact honeMore
  | braced openSpan =>
      refine look ?_
      split
      · rename_i hkind
        refine take (gives ?_)
        rw [State.next_lookAhead]
        refine ⟨hs.taken hkind (by simp), hbody _, ?_⟩
        rintro _ _ ⟨⟩
        exact hkind
      · exact fails hs.toStands.lookAhead (by simp [ParseFault.code])
      · exact honeMore

theorem statements (level : Level) (hs : s.Ready inside scopes) :
    Judges s (Run.iterate rounds (Parser.round host rounds again level) [])
      (Run.iterate rounds (Parser.round host' rounds again' level) []) fun body t =>
        level.Passed inside scopes (.done body) t := by
  refine .iterate (J := fun stmts t => level.Passed inside scopes (.next stmts) t)
    (fun stmts t ht => ?_) rounds [] ⟨hs, by simp⟩
  refine (h.round hhosts hsplices level stmts ht.1 ht.2).imp fun step u hu => ?_
  cases step <;> exact hu

theorem block (kind : ScopeKind) (hs : Goal.Before inside scopes s (.block kind)) :
    Judges s (block host rounds again kind) (block host' rounds again' kind) fun body t =>
      t.Stands ⟨.block, inside⟩ scopes ∧ Stood kind scopes body t.buffer := by
  obtain ⟨opens, hs, hcallable⟩ := hs
  rw [block_eq, block_eq]
  refine expected hs (by simp) fun ht => inScope ht fun u _ hu => ?_
  exact (h.statements hhosts hsplices _ ⟨hu, hcallable⟩).imp fun body t ht =>
    ⟨ht.1, ht.2.2 (by simp), ht.2.1⟩

/-- A unit has no `return` of its own. -/
theorem unit (hs : s.Stands ⟨.block, []⟩ []) :
    Judges s (unit host rounds again) (unit host' rounds again') fun body t =>
      t.Stands ⟨.block, []⟩ [] ∧ ¬body.Returns := by
  rw [unit_eq, unit_eq]
  refine inScope (P := fun (body : Block) _ => ¬body.Returns) hs fun u _ hu => ?_
  exact (h.statements hhosts hsplices .unit ⟨hu, rfl⟩).imp fun body t ht =>
    ⟨ht.1, fun hreturns => by cases ht.2.1 hreturns⟩

end Parts

/-! ## Whole parses -/

variable {host host' : Host σ} (hsplices : host.Splices)
  (hhosts : host.AgreeOn host' fun body => ¬body.Returns)

include hsplices hhosts

theorem parts (bound : Nat) : Parts (run host bound) (run host' bound) := by
  induction bound with
  | zero => exact fun _ _ _ _ _ => ⟨rfl, trivial⟩
  | succ bound ih =>
      intro α goal inside scopes s hs
      change Judges s (run host (bound + 1) goal) (run host' (bound + 1) goal) fun a t =>
        goal.After inside scopes t a
      rw [run_succ, run_succ]
      cases goal with
      | expr => exact ih.joined hhosts 6 hs
      | joined limit => exact ih.joined hhosts limit hs
      | unary => exact ih.unary hhosts hs
      | block kind => exact ih.block hhosts hsplices kind hs
      | conditional => exact ih.conditional hs

theorem runUnit (bound : Nat) (source : String) (h : σ) :
    Judges (.start source h) (runUnit host bound) (runUnit host' bound) fun unit t =>
      t.Stands ⟨.block, []⟩ [] ∧ ¬unit.Returns :=
  Parts.unit (parts hsplices hhosts bound) hhosts hsplices (.start source h)

end Judges

variable {host host' : Host σ}

/-- However a parse ends, of the `return`s that were consumed those were rejected that have no sub
or closure around them. -/
theorem runUnit_judges (hsplices : host.Splices) {bound : Nat} {source : String} {h : σ}
    {result : Except CompileError Block} {p : State σ}
    (hrun : (runUnit host bound).run? (.start source h) = some (result, p)) :
    Judged (fun keyword => ∃ e, result = .error e ∧ Rejects e keyword) p.buffer.consumed := by
  have hjudges := Judges.runUnit hsplices (.refl host _) bound source h
  cases result with
  | ok unit => exact (hjudges.value (Run.run?_eq_ok.1 hrun)).2.1.judged.of_head fun _ _ _ => by simp
  | error e =>
      have hrefuses := (hjudges.error (Run.run?_eq_error.1 hrun)).2
      simpa [Refuses] using hrefuses

/-- A unit has no `return` of its own. -/
theorem runUnit_not_returns (hsplices : host.Splices) {bound : Nat} {source : String} {h : σ}
    {unit : Block} {p : State σ} (hrun : runUnit host bound (.start source h) = .value unit p) :
    ¬unit.Returns :=
  ((Judges.runUnit hsplices (.refl host _) bound source h).value hrun).2.2

/-- No `begin` block that is run has a `return` of its own. -/
theorem runUnit_congr (hsplices : host.Splices)
    (hhosts : host.AgreeOn host' fun body => ¬body.Returns) (bound : Nat) (source : String)
    (h : σ) : runUnit host' bound (.start source h) = runUnit host bound (.start source h) :=
  (Judges.runUnit hsplices hhosts bound source h).same

end Parser

end TwoPhase
