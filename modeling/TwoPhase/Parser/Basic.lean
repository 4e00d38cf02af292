import TwoPhase.NameMap
import TwoPhase.Run
import TwoPhase.Tree
import TwoPhase.Fault
import TwoPhase.Buffer

/-!
# Parsing drives construction

The parser does more than build a tree.  A `sub` is installed as soon as its body has been parsed,
and a `begin` block runs as soon as its closing brace has been consumed, before another token is
read.  Whatever text the block splices in behind the brace is therefore parsed next.

A host says what these events do.  It is given the buffer while a `begin` block runs, and gives it
back; no other event changes the buffer.  It is also told what is left of the bound on nesting,
since the block runs on top of all that is being parsed around it.

This module holds the host, the parser's state, and the operations on single tokens and lexical
scopes that the grammar is written in.
-/

namespace TwoPhase

/-- What the parser needs of the program that constructs a unit. -/
structure Host (σ : Type) where
  /-- The cell that a global name means now. -/
  resolveGlobal : String → σ → CellRef × σ
  /-- Takes in a sub. -/
  installSub : String → Function → σ → σ
  /-- Runs a `begin` block, which may splice text into the buffer, given what is left of the bound
  on nesting. -/
  runBegin : Nat → Block → Span → Run (Buffer × σ) CompileError Unit
  /-- How deep the parses nest that were interrupted for this one. -/
  nesting : σ → Nat

namespace Parser

/-- What a lexical scope belongs to. -/
inductive ScopeKind where
  | unit
  /-- A plain block, or one of `if` or `while`. -/
  | block
  /-- A closure, which sees the lexicals around it. -/
  | closure
  /-- A sub, which sees only its own. -/
  | sub
  /-- A `begin` block, which runs before any lexical around it exists. -/
  | beginBlock
  deriving DecidableEq, Inhabited, Repr

/-- Whether lookups end at such a scope. -/
def ScopeKind.isBarrier : ScopeKind → Bool
  | sub => true
  | beginBlock => true
  | _ => false

/-- The lexical names declared so far in one scope. -/
structure LexicalScope where
  kind : ScopeKind
  /-- For each name the last declaration of it, by the number of declarations before. -/
  names : NameMap Nat
  /-- The number of declarations. -/
  declared : Nat
  deriving Inhabited

namespace LexicalScope

/-- A scope without declarations. -/
def empty (kind : ScopeKind) : LexicalScope := ⟨kind, ∅, 0⟩

/-- Declares a name, over an earlier declaration of it if there is one. -/
def declare (scope : LexicalScope) (name : String) : LexicalScope :=
  { scope with names := scope.names.insert name scope.declared, declared := scope.declared + 1 }

/-- A scope that declares some names, one after the other. -/
def declaring (kind : ScopeKind) (names : List String) : LexicalScope :=
  names.foldl declare (empty kind)

end LexicalScope

/-- What a name refers to as a lexical one, as seen from inside some scopes, innermost first. -/
def lexical? (name : String) : List LexicalScope → Option LexicalRef
  | [] => none
  | scope :: outer =>
    match scope.names[name]? with
    | some index => some ⟨name, [scope.declared], 1, index⟩
    | none =>
      if scope.kind.isBarrier then none
      else (lexical? name outer).map fun ref => { ref with
        seen := scope.declared :: ref.seen
        own := if scope.kind = .closure then 1 else ref.own + 1 }

/-- A name that is found is declared in the innermost scope, or it is not and is found from the
scope around it. -/
theorem lexical?_cons {name : String} {scope : LexicalScope} {outer : List LexicalScope}
    {ref : LexicalRef} (h : lexical? name (scope :: outer) = some ref) :
    (∃ index, scope.names[name]? = some index ∧ ref = ⟨name, [scope.declared], 1, index⟩) ∨
      scope.names[name]? = none ∧ scope.kind.isBarrier = false ∧
        ∃ far, lexical? name outer = some far ∧ ref = { far with
          seen := scope.declared :: far.seen
          own := if scope.kind = .closure then 1 else far.own + 1 } := by
  cases hnames : scope.names[name]? with
  | some index =>
      rw [lexical?, hnames] at h
      cases h
      exact .inl ⟨index, rfl, rfl⟩
  | none =>
      rw [lexical?, hnames] at h
      dsimp only at h
      split at h
      · cases h
      · rename_i hbarrier
        obtain ⟨far, hfar, rfl⟩ := Option.map_eq_some_iff.1 h
        exact .inr ⟨rfl, by simpa using hbarrier, far, hfar, rfl⟩

/-- Whether a `return` inside some scopes, innermost first, has a sub or closure to leave. -/
def inCallable : List LexicalScope → Bool
  | [] => false
  | scope :: outer =>
    match scope.kind with
    | .closure => true
    | .sub => true
    | .block => inCallable outer
    | .unit => false
    | .beginBlock => false

structure State (σ : Type) where
  buffer : Buffer
  /-- The scopes around the cursor, innermost first. -/
  scopes : List LexicalScope
  host : σ

/-- At the start of a text, in no scope. -/
def State.start (source : String) (host : σ) : State σ := ⟨.ofString source, [], host⟩

end Parser

/-- A parser that talks to a host with state `σ`. -/
abbrev Parse (σ : Type) := Run (Parser.State σ) CompileError

namespace Parser

variable {σ α : Type}

/-! ## Errors -/

def fail (fault : ParseFault) (span : Span) : Parse σ α := throw (.parse ⟨fault, span⟩ none)

/-- How a message shows a token: by its text if it has any. -/
def shown (token : Token) : String :=
  if token.text = "" then token.kind.describe else s!"`{token.text}`"

/-- What is wrong with a token where another was expected; a bad token is wrong by itself. -/
def misplaced (token : Token) (fault : String → ParseFault) : ParseFault :=
  match token.kind with
  | .bad error => .lexical error token.text
  | _ => fault (shown token)

def unexpected (what : String) (token : Token) : Parse σ α :=
  fail (misplaced token (.expected what)) token.span

/-! ## Tokens -/

@[inline] def peek : Parse σ Token :=
  modifyGet fun s =>
    let (token, buffer) := s.buffer.peek
    (token, { s with buffer })

def advance : Parse σ Token :=
  modifyGet fun s =>
    let (token, buffer) := s.buffer.next
    (token, { s with buffer })

/-- Whether the next token is of a kind. -/
def check (kind : TokenKind) : Parse σ Bool := return (← peek).kind == kind

/-- Consumes the next token if it is of a kind. -/
def eat (kind : TokenKind) : Parse σ Bool := do
  if ← check kind then
    let _ ← advance
    return true
  else return false

/-- Consumes the next token, which must be of a kind. -/
def expect (kind : TokenKind) : Parse σ Token := do
  let token ← peek
  if token.kind = kind then advance else unexpected kind.describe token

/-- Consumes an identifier, and gives its name and span. -/
def expectIdent : Parse σ (String × Span) := do
  let token ← peek
  match token.kind with
  | .ident name =>
    let _ ← advance
    return (name, token.span)
  | _ => fail (misplaced token .expectedIdentifier) token.span

/-- Whether a name is a path. -/
def isPath (name : String) : Bool := name.toList.contains ':'

/-- Consumes the name of a `let` or parameter.  Paths always name globals, so they are refused. -/
def expectLexicalName : Parse σ String := do
  let (name, span) ← expectIdent
  if isPath name then fail (.pathAsLexicalName name) span else return name

/-- Ends a statement by a semicolon, which may be left out before `}` and at the end. -/
def expectTerminator : Parse σ Unit := do
  if ← eat .semicolon then return
  let token ← peek
  match token.kind with
  | .braceClose => return
  | .endOfInput => return
  | _ => unexpected "`;`" token

/-! ## Scopes and events -/

/-- Parses inside a new lexical scope, which may have names from the start. -/
def inScope (kind : ScopeKind) (names : List String) (body : Parse σ α) : Parse σ α := do
  modify fun s => { s with scopes := .declaring kind names :: s.scopes }
  Run.ensuring body fun s => { s with scopes := s.scopes.tail }

/-- Whether a `return` has a sub or closure to leave. -/
def mayReturn : Parse σ Bool := return inCallable (← get).scopes

/-- The scopes with a name declared in the innermost one. -/
def declareIn (name : String) : List LexicalScope → List LexicalScope
  | [] => []
  | scope :: outer => scope.declare name :: outer

/-- Declares a lexical name in the innermost scope. -/
def declare (name : String) : Parse σ Unit :=
  modify fun s => { s with scopes := declareIn name s.scopes }

/-- The expression that a name stands for. -/
def resolve (host : Host σ) (name : String) (span : Span) : Parse σ Expr :=
  modifyGet fun ⟨buffer, scopes, h⟩ =>
    match lexical? name scopes with
    | some ref => (.lexical span ref, ⟨buffer, scopes, h⟩)
    | none =>
      let (cell, h) := host.resolveGlobal name h
      (.global span cell, ⟨buffer, scopes, h⟩)

def installSub (host : Host σ) (name : String) (function : Function) : Parse σ Unit :=
  modify fun ⟨buffer, scopes, h⟩ => ⟨buffer, scopes, host.installSub name function h⟩

def runBegin (host : Host σ) (left : Nat) (body : Block) (span : Span) : Parse σ Unit :=
  fun ⟨buffer, scopes, h⟩ =>
    (host.runBegin left body span (buffer, h)).mapState fun (buffer, h) => ⟨buffer, scopes, h⟩

end Parser

end TwoPhase
