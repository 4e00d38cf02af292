import TwoPhase.Parser.Basic
import TwoPhase.Stack

/-!
# The grammar

Expressions, lowest precedence first:

```text
expr     := or
or       := and ("||" and)*
and      := equality ("&&" equality)*
equality := compare (("==" | "!=") compare)*
compare  := sum (("<" | "<=" | ">" | ">=") sum)*
sum      := product (("+" | "-") product)*
product  := unary (("*" | "/" | "%") unary)*
unary    := ("-" | "!") unary | call
call     := primary ("(" args ")")*
```

## Recursion

The grammar is a function of `again`, which parses the parts that may nest; `Parser.run` ties the
knot, with a bound on nesting that is also the bound on the rounds of every loop.  A fact about all
parses is then one induction: it holds of a part if it holds of what `again` does.
-/

namespace TwoPhase.Parser

/-- The parts of the grammar that may contain themselves, and what they give. -/
inductive Goal : Type → Type where
  | expr : Goal Expr
  /-- Operands and the operators between them that bind less loosely than a limit. -/
  | joined (limit : Nat) : Goal Expr
  | unary : Goal Expr
  /-- A block in braces, with a scope of its own. -/
  | block (kind : ScopeKind) : Goal Block
  /-- A conditional, with all its `else if`s. -/
  | conditional : Goal Stmt

/-- A way to parse the parts that may nest. -/
abbrev Again (σ : Type) := ∀ {α : Type}, Goal α → Parse σ α

variable {σ : Type} (host : Host σ) (rounds : Nat) (again : Again σ)

/-! ## Lists and functions -/

/-- Expressions between delimiters, a comma after each but perhaps the last.  Gives the span of the
closing delimiter too. -/
def delimited (opening closing : TokenKind) (delimiter : Char) : Parse σ (List Expr × Span) := do
  let openToken ← expect opening
  Run.iterate rounds (fun items => do
    let token ← peek
    if token.kind = closing then
      let _ ← advance
      return .done (items.reverse, token.span)
    if token.kind = .endOfInput then fail (.unclosed delimiter openToken.span) token.span
    let item ← again .expr
    if !(← check closing) then let _ ← expect .comma
    return .next (item :: items)) []

/-- A parameter list. -/
def parameters : Parse σ (List String) := do
  let openToken ← expect .parenOpen
  Run.iterate rounds (fun names => do
    let token ← peek
    match token.kind with
    | .parenClose =>
      let _ ← advance
      return .done names.reverse
    | .endOfInput => fail (.unclosed '(' openToken.span) token.span
    | _ =>
      let name ← expectLexicalName
      if !(← check .parenClose) then let _ ← expect .comma
      return .next (name :: names)) []

/-- Parameters and body of a sub or closure.  The parameters have a scope of their own around that
of the body. -/
def function (name : Option String) (kind : ScopeKind) (start : Span) : Parse σ Function := do
  let params ← parameters rounds
  let body ← inScope kind params (again (.block .block))
  return .mk (start.merge body.span) name params body

/-! ## Expressions -/

/-- The expression that a token is by itself. -/
def literal? (token : Token) : Option Expr :=
  match token.kind with
  | .int value => some (.int token.span value)
  | .str value => some (.str token.span value)
  | .kwTrue => some (.bool token.span true)
  | .kwFalse => some (.bool token.span false)
  | .kwNil => some (.nil token.span)
  | _ => none

/-- An expression that no operator splits. -/
def primary : Parse σ Expr := do
  let token ← peek
  match literal? token with
  | some expr =>
    let _ ← advance
    return expr
  | none =>
    match token.kind with
    | .ident name =>
      let expr ← resolve host name token.span
      let _ ← advance
      return expr
    | .parenOpen =>
      let _ ← advance
      let inner ← again .expr
      let close ← expect .parenClose
      return inner.withSpan (token.span.merge close.span)
    | .bracketOpen =>
      let (items, close) ← delimited rounds again .bracketOpen .bracketClose '['
      return .list (token.span.merge close) items
    | .kwFn =>
      let _ ← advance
      let f ← function rounds again none .closure token.span
      return .closure f.span f
    | _ => fail (misplaced token .expectedExpression) token.span

/-- A primary expression and the calls of it. -/
def call : Parse σ Expr := do
  let callee ← primary host rounds again
  Run.iterate rounds (fun callee => do
    if ← check .parenOpen then
      let (args, close) ← delimited rounds again .parenOpen .parenClose '('
      return .next (.call (callee.span.merge close) callee args)
    else return .done callee) callee

/-- A prefix operator and its operand, or a call. -/
def unary : Parse σ Expr := do
  let token ← peek
  let operator (op : UnaryOp) : Parse σ Expr := do
    let _ ← advance
    let operand ← again .unary
    return .unary (token.span.merge operand.span) op operand
  match token.kind with
  | .minus => operator .neg
  | .bang => operator .not
  | _ => call host rounds again

/-- The operator that a token stands for between two operands. -/
def operator? : TokenKind → Option BinaryOp
  | .orOr => some .or
  | .andAnd => some .and
  | .equal => some .equal
  | .notEqual => some .notEqual
  | .less => some .less
  | .lessEqual => some .lessEqual
  | .greater => some .greater
  | .greaterEqual => some .greaterEqual
  | .plus => some .add
  | .minus => some .sub
  | .star => some .mul
  | .slash => some .div
  | .percent => some .mod
  | _ => none

/-- How loosely an operator binds, from none for products. -/
def looseness : BinaryOp → Nat
  | .or => 5
  | .and => 4
  | .equal | .notEqual => 3
  | .less | .lessEqual | .greater | .greaterEqual => 2
  | .add | .sub => 1
  | .mul | .div | .mod => 0

/-- Operands joined by the operators that bind less loosely than `limit`.  What follows an operator
is joined by tighter ones first, so equal ones group to the left. -/
def joined (limit : Nat) : Parse σ Expr := do
  let left ← unary host rounds again
  Run.iterate rounds (fun left => do
    let token ← peek
    match operator? token.kind with
    | none => return .done left
    | some op =>
      if limit ≤ looseness op then return .done left
      let _ ← advance
      let right ← again (.joined (looseness op))
      return .next (.binary (left.span.merge right.span) op left right)) left

/-! ## Statements -/

/-- An expression in parentheses. -/
def condition : Parse σ Expr := do
  let _ ← expect .parenOpen
  let test ← again .expr
  let _ ← expect .parenClose
  return test

/-- `let name = value;`.  The name is not in scope in its own value. -/
def letStmt : Parse σ Stmt := do
  let keyword ← advance
  let name ← expectLexicalName
  let _ ← expect .assign
  let value ← again .expr
  expectTerminator
  declare name
  return .define (keyword.span.merge value.span) name value

/-- A `return` statement behind its word: with a value or without one. -/
def returned (keyword : Span) : Parse σ Stmt := do
  let token ← peek
  match token.kind with
  | .semicolon | .braceClose | .endOfInput =>
    expectTerminator
    return .ret keyword none
  | _ =>
    let value ← again .expr
    expectTerminator
    return .ret (keyword.merge value.span) (some value)

/-- `return;` or `return value;`, inside a sub or closure only. -/
def returnStmt : Parse σ Stmt := do
  let keyword ← advance
  if !(← mayReturn) then fail .returnOutsideCallable keyword.span
  returned again keyword.span

/-- `if`, with an `else` that holds a block or another conditional.  That conditional stands for a
block of its own. -/
def conditional : Parse σ Stmt := do
  let keyword ← advance
  let test ← condition again
  let yes ← again (.block .block)
  let span := keyword.span.merge yes.span
  if ← eat .kwElse then
    let no ← if ← check .kwIf then do
        let nested ← inScope .block [] (again .conditional)
        pure (Block.mk nested.span [nested])
      else again (.block .block)
    return .cond (span.merge no.span) test yes (some no)
  else return .cond span test yes none

def whileStmt : Parse σ Stmt := do
  let keyword ← advance
  let test ← condition again
  let body ← again (.block .block)
  return .loop (keyword.span.merge body.span) test body

/-- `expr;` or `name = expr;`. -/
def exprStmt : Parse σ Stmt := do
  let target ← again .expr
  if ← eat .assign then
    let value ← again .expr
    let span := target.span.merge value.span
    match target with
    | .lexical _ ref =>
      expectTerminator
      return .assignLexical span ref value
    | .global _ cell =>
      expectTerminator
      return .assignGlobal span cell value
    | _ => fail .invalidTarget target.span
  else
    expectTerminator
    return .expr target

/-- A `begin` block, which runs at once. -/
def beginStmt : Parse σ Unit := do
  let keyword ← advance
  let body ← again (.block .beginBlock)
  runBegin host rounds body (keyword.span.merge body.span)

/-- A sub, which is installed at once. -/
def subStmt : Parse σ Unit := do
  let keyword ← advance
  let (name, _) ← expectIdent
  let f ← function rounds again (some name) .sub keyword.span
  installSub host name f

/-- A statement.  Those that act on construction leave nothing in the tree. -/
def statement : Parse σ (Option Stmt) := do
  let token ← peek
  match token.kind with
  | .semicolon =>
    let _ ← advance
    return none
  | .kwBegin =>
    beginStmt host rounds again
    return none
  | .kwSub =>
    subStmt host rounds again
    return none
  | .kwLet => some <$> letStmt again
  | .kwReturn => some <$> returnStmt again
  | .kwIf => some <$> conditional again
  | .kwWhile => some <$> whileStmt again
  | .braceOpen => (some ∘ Stmt.block) <$> again (.block .block)
  | _ => some <$> exprStmt again

/-- A block in braces.  Nothing behind the closing brace is looked at. -/
def block (kind : ScopeKind) : Parse σ Block := do
  let openToken ← expect .braceOpen
  inScope kind [] (Run.iterate rounds (fun stmts => do
    let token ← peek
    match token.kind with
    | .braceClose =>
      let _ ← advance
      return .done (Block.mk (openToken.span.merge token.span) stmts.reverse)
    | .endOfInput => fail (.unclosed '{' openToken.span) token.span
    | _ =>
      let stmt ← statement host rounds again
      return .next (stmt.toList ++ stmts)) [])

/-- All statements up to the end of the text. -/
def unit : Parse σ Block :=
  inScope .unit [] (Run.iterate rounds (fun stmts => do
    let token ← peek
    match token.kind with
    | .endOfInput => return .done (Block.mk ⟨0, token.span.stop⟩ stmts.reverse)
    | .braceClose => unexpected "statement" token
    | _ =>
      let stmt ← statement host rounds again
      return .next (stmt.toList ++ stmts)) [])

/-! ## Nesting -/

/-- Parses a part, given how to parse the parts inside it. -/
def parse : {α : Type} → Goal α → Parse σ α
  | _, .expr => joined host rounds again 6
  | _, .joined limit => joined host rounds again limit
  | _, .unary => unary host rounds again
  | _, .block kind => block host rounds again kind
  | _, .conditional => conditional again

/-- Parses a part that nests no deeper than a bound. -/
def run (host : Host σ) : Nat → {α : Type} → Goal α → Parse σ α
  | 0, _, _ => Run.cutOff
  | bound + 1, _, goal => fun s =>
    Stack.atLevel (bound - host.nesting s.host) fun _ => parse host bound (run host bound) goal s

@[simp] theorem run_succ {α : Type} (bound : Nat) (goal : Goal α) :
    run host (bound + 1) goal = parse host bound (run host bound) goal := by
  funext s
  simp [run]

/-- Parses the text of a unit. -/
def runUnit (host : Host σ) (bound : Nat) : Parse σ Block := unit host bound (run host bound)

end TwoPhase.Parser
