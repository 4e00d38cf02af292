import TwoPhase.Parser.Basic
import TwoPhase.Proofs.Sound.Spans

/-!
# Sound code

Code is sound for a text and the lexical scopes around it if its spans fit the text and each of its
lexical names is resolved as these scopes say.  A `let` declares its name for the statements behind
it, a function its parameters for its body, and every block has a scope of its own.

Sound code stays sound when the text grows.
-/

namespace TwoPhase

open TwoPhase.Parser

/-- The scopes behind a statement: a `let` declares its name in the innermost one. -/
def Stmt.scopesBehind (scopes : List LexicalScope) : Stmt → List LexicalScope
  | .define _ name _ => declareIn name scopes
  | _ => scopes

mutual

inductive Expr.Sound (text : List Char) : List LexicalScope → Expr → Prop where
  | nil {scopes span} (h : span.Fits text) : Expr.Sound text scopes (.nil span)
  | bool {scopes span value} (h : span.Fits text) : Expr.Sound text scopes (.bool span value)
  | int {scopes span value} (h : span.Fits text) : Expr.Sound text scopes (.int span value)
  | str {scopes span value} (h : span.Fits text) : Expr.Sound text scopes (.str span value)
  | list {scopes span items} (h : span.Fits text)
      (hitems : ∀ item ∈ items, Expr.Sound text scopes item) :
      Expr.Sound text scopes (.list span items)
  | lexical {scopes span ref} (h : span.Fits text)
      (href : lexical? ref.name scopes = some ref) : Expr.Sound text scopes (.lexical span ref)
  | global {scopes span cell} (h : span.Fits text) : Expr.Sound text scopes (.global span cell)
  | call {scopes span callee args} (h : span.Fits text) (hcallee : Expr.Sound text scopes callee)
      (hargs : ∀ arg ∈ args, Expr.Sound text scopes arg) :
      Expr.Sound text scopes (.call span callee args)
  | closure {scopes span function} (h : span.Fits text)
      (hfunction : Function.Sound text .closure scopes function) :
      Expr.Sound text scopes (.closure span function)
  | unary {scopes span op operand} (h : span.Fits text)
      (hoperand : Expr.Sound text scopes operand) :
      Expr.Sound text scopes (.unary span op operand)
  | binary {scopes span op left right} (h : span.Fits text)
      (hleft : Expr.Sound text scopes left) (hright : Expr.Sound text scopes right) :
      Expr.Sound text scopes (.binary span op left right)

inductive Stmt.Sound (text : List Char) : List LexicalScope → Stmt → Prop where
  | define {scopes span name value} (h : span.Fits text) (hvalue : Expr.Sound text scopes value) :
      Stmt.Sound text scopes (.define span name value)
  | assignLexical {scopes span ref value} (h : span.Fits text)
      (href : lexical? ref.name scopes = some ref) (hvalue : Expr.Sound text scopes value) :
      Stmt.Sound text scopes (.assignLexical span ref value)
  | assignGlobal {scopes span cell value} (h : span.Fits text)
      (hvalue : Expr.Sound text scopes value) :
      Stmt.Sound text scopes (.assignGlobal span cell value)
  | expr {scopes e} (h : Expr.Sound text scopes e) : Stmt.Sound text scopes (.expr e)
  | ret {scopes span value} (h : span.Fits text)
      (hvalue : ∀ e ∈ value, Expr.Sound text scopes e) : Stmt.Sound text scopes (.ret span value)
  | block {scopes body} (h : Block.Sound text .block scopes body) :
      Stmt.Sound text scopes (.block body)
  | cond {scopes span test yes no} (h : span.Fits text) (htest : Expr.Sound text scopes test)
      (hyes : Block.Sound text .block scopes yes)
      (hno : ∀ body ∈ no, Block.Sound text .block scopes body) :
      Stmt.Sound text scopes (.cond span test yes no)
  | loop {scopes span test body} (h : span.Fits text) (htest : Expr.Sound text scopes test)
      (hbody : Block.Sound text .block scopes body) : Stmt.Sound text scopes (.loop span test body)

/-- Sound statements that lead from some scopes to others. -/
inductive Stmt.Lead (text : List Char) :
    List LexicalScope → List Stmt → List LexicalScope → Prop where
  | nil {scopes} : Stmt.Lead text scopes [] scopes
  | cons {scopes behind stmt stmts} (h : Stmt.Sound text scopes stmt)
      (hmore : Stmt.Lead text (stmt.scopesBehind scopes) stmts behind) :
      Stmt.Lead text scopes (stmt :: stmts) behind

/-- A block in some scopes, with a scope of its own. -/
inductive Block.Sound (text : List Char) : ScopeKind → List LexicalScope → Block → Prop where
  | mk {kind scopes span stmts behind} (h : span.Fits text)
      (hstmts : Stmt.Lead text (.empty kind :: scopes) stmts behind) :
      Block.Sound text kind scopes (.mk span stmts)

/-- A function in some scopes, whose parameters have a scope of their own. -/
inductive Function.Sound (text : List Char) : ScopeKind → List LexicalScope → Function → Prop where
  | mk {kind scopes span name params body} (h : span.Fits text)
      (hbody : Block.Sound text .block (.declaring kind params :: scopes) body) :
      Function.Sound text kind scopes (.mk span name params body)

end

variable {text more : List Char} {scopes behind : List LexicalScope} {kind : ScopeKind}

/-! ## Spans -/

theorem Expr.Sound.span {e : Expr} (h : e.Sound text scopes) : e.span.Fits text := by
  cases h <;> assumption

theorem Block.Sound.span {body : Block} (h : body.Sound text kind scopes) :
    body.span.Fits text := by
  cases h with
  | mk h => exact h

theorem Stmt.Sound.span {stmt : Stmt} (h : stmt.Sound text scopes) : stmt.span.Fits text := by
  cases h with
  | expr h => exact h.span
  | block h => exact h.span
  | _ => assumption

theorem Function.Sound.span {function : Function} (h : function.Sound text kind scopes) :
    function.span.Fits text := by
  cases h with
  | mk h => exact h

theorem Function.Sound.body {function : Function} (h : function.Sound text kind scopes) :
    function.body.Sound text .block (.declaring kind function.params :: scopes) := by
  cases h with
  | mk _ hbody => exact hbody

theorem Expr.Sound.withSpan {e : Expr} {span : Span} (h : e.Sound text scopes)
    (hspan : span.Fits text) : (e.withSpan span).Sound text scopes := by
  cases h with
  | nil | bool | int | str | global => constructor; exact hspan
  | list _ hitems => exact .list hspan hitems
  | lexical _ href => exact .lexical hspan href
  | call _ hcallee hargs => exact .call hspan hcallee hargs
  | closure _ hfunction => exact .closure hspan hfunction
  | unary _ hoperand => exact .unary hspan hoperand
  | binary _ hleft hright => exact .binary hspan hleft hright

/-! ## Growing texts -/

mutual

theorem Expr.Sound.mono (hmore : text <+: more) {scopes} : ∀ {e : Expr},
    e.Sound text scopes → e.Sound more scopes
  | _, .nil h => .nil (h.mono hmore)
  | _, .bool h => .bool (h.mono hmore)
  | _, .int h => .int (h.mono hmore)
  | _, .str h => .str (h.mono hmore)
  | _, .list h hitems => .list (h.mono hmore) fun item hitem => (hitems item hitem).mono hmore
  | _, .lexical h href => .lexical (h.mono hmore) href
  | _, .global h => .global (h.mono hmore)
  | _, .call h hcallee hargs =>
    .call (h.mono hmore) (hcallee.mono hmore) fun arg harg => (hargs arg harg).mono hmore
  | _, .closure h hfunction => .closure (h.mono hmore) (hfunction.mono hmore)
  | _, .unary h hoperand => .unary (h.mono hmore) (hoperand.mono hmore)
  | _, .binary h hleft hright => .binary (h.mono hmore) (hleft.mono hmore) (hright.mono hmore)

theorem Stmt.Sound.mono (hmore : text <+: more) {scopes} : ∀ {stmt : Stmt},
    stmt.Sound text scopes → stmt.Sound more scopes
  | _, .define h hvalue => .define (h.mono hmore) (hvalue.mono hmore)
  | _, .assignLexical h href hvalue => .assignLexical (h.mono hmore) href (hvalue.mono hmore)
  | _, .assignGlobal h hvalue => .assignGlobal (h.mono hmore) (hvalue.mono hmore)
  | _, .expr h => .expr (h.mono hmore)
  | _, .ret h hvalue => .ret (h.mono hmore) fun e he => (hvalue e he).mono hmore
  | _, .block h => .block (h.mono hmore)
  | _, .cond h htest hyes hno =>
    .cond (h.mono hmore) (htest.mono hmore) (hyes.mono hmore)
      fun body hbody => (hno body hbody).mono hmore
  | _, .loop h htest hbody => .loop (h.mono hmore) (htest.mono hmore) (hbody.mono hmore)

theorem Stmt.Lead.mono (hmore : text <+: more) {scopes behind} : ∀ {stmts : List Stmt},
    Stmt.Lead text scopes stmts behind → Stmt.Lead more scopes stmts behind
  | _, .nil => .nil
  | _, .cons h hstmts => .cons (h.mono hmore) (hstmts.mono hmore)

theorem Block.Sound.mono (hmore : text <+: more) {kind scopes} : ∀ {body : Block},
    body.Sound text kind scopes → body.Sound more kind scopes
  | _, .mk h hstmts => .mk (h.mono hmore) (hstmts.mono hmore)

theorem Function.Sound.mono (hmore : text <+: more) {kind scopes} : ∀ {function : Function},
    function.Sound text kind scopes → function.Sound more kind scopes
  | _, .mk h hbody => .mk (h.mono hmore) (hbody.mono hmore)

end

/-! ## Statements in a row -/

theorem Stmt.tail_scopesBehind (stmt : Stmt) (scopes : List LexicalScope) :
    (stmt.scopesBehind scopes).tail = scopes.tail := by
  cases stmt with
  | define span name value => cases scopes <;> rfl
  | _ => rfl

namespace Stmt.Lead

variable {stmts : List Stmt}

theorem of_append {more : List Stmt} (h : Stmt.Lead text scopes (stmts ++ more) behind) :
    ∃ middle, Stmt.Lead text scopes stmts middle ∧ Stmt.Lead text middle more behind := by
  induction stmts generalizing scopes with
  | nil => exact ⟨scopes, .nil, h⟩
  | cons first stmts ih =>
      cases h with
      | cons hfirst hstmts =>
          obtain ⟨middle, hleft, hright⟩ := ih hstmts
          exact ⟨middle, .cons hfirst hleft, hright⟩

theorem snoc (h : Stmt.Lead text scopes stmts behind) {stmt : Stmt}
    (hstmt : stmt.Sound text behind) :
    Stmt.Lead text scopes (stmts ++ [stmt]) (stmt.scopesBehind behind) := by
  induction stmts generalizing scopes with
  | nil =>
      cases h
      exact .cons hstmt .nil
  | cons first stmts ih =>
      cases h with
      | cons hfirst hstmts => exact .cons hfirst (ih hstmts)

end Stmt.Lead

end TwoPhase
