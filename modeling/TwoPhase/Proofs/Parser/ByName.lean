import TwoPhase.Parser.Grammar

/-!
# Trees by name

The number of a cell says when the cell was made, which depends on everything that ran before.  A
tree by name is a tree without these numbers: what is left of it is what the text says.
-/

namespace TwoPhase

def CellRef.byName (cell : CellRef) : CellRef := ⟨0, cell.name⟩

mutual

def Expr.byName : Expr → Expr
  | .nil span => .nil span
  | .bool span value => .bool span value
  | .int span value => .int span value
  | .str span value => .str span value
  | .list span items => .list span (exprsByName items)
  | .lexical span ref => .lexical span ref
  | .global span cell => .global span cell.byName
  | .call span callee args => .call span callee.byName (exprsByName args)
  | .closure span function => .closure span function.byName
  | .unary span op operand => .unary span op operand.byName
  | .binary span op left right => .binary span op left.byName right.byName

def exprsByName : List Expr → List Expr
  | [] => []
  | e :: es => e.byName :: exprsByName es

def Stmt.byName : Stmt → Stmt
  | .define span name value => .define span name value.byName
  | .assignLexical span ref value => .assignLexical span ref value.byName
  | .assignGlobal span cell value => .assignGlobal span cell.byName value.byName
  | .expr e => .expr e.byName
  | .ret span none => .ret span none
  | .ret span (some value) => .ret span (some value.byName)
  | .block body => .block body.byName
  | .cond span test yes none => .cond span test.byName yes.byName none
  | .cond span test yes (some no) => .cond span test.byName yes.byName (some no.byName)
  | .loop span test body => .loop span test.byName body.byName

def stmtsByName : List Stmt → List Stmt
  | [] => []
  | s :: ss => s.byName :: stmtsByName ss

def Block.byName : Block → Block
  | .mk span stmts => .mk span (stmtsByName stmts)

def Function.byName : Function → Function
  | .mk span name params body => .mk span name params body.byName

end

/-! ## Constructors -/

section

variable (span : Span) (name : String) (ref : LexicalRef) (cell : CellRef) (e left right : Expr)
  (es : List Expr)
  (s : Stmt) (ss : List Stmt) (body yes no : Block) (function : Function)

@[simp] theorem exprsByName_nil : exprsByName [] = [] := rfl

@[simp] theorem exprsByName_cons : exprsByName (e :: es) = e.byName :: exprsByName es := rfl

@[simp] theorem stmtsByName_nil : stmtsByName [] = [] := rfl

@[simp] theorem stmtsByName_cons : stmtsByName (s :: ss) = s.byName :: stmtsByName ss := rfl

@[simp] theorem Expr.byName_list :
    (Expr.list span es).byName = .list span (exprsByName es) := rfl

@[simp] theorem Expr.byName_lexical : (Expr.lexical span ref).byName = .lexical span ref := rfl

@[simp] theorem Expr.byName_global :
    (Expr.global span cell).byName = .global span cell.byName := rfl

@[simp] theorem Expr.byName_call :
    (Expr.call span e es).byName = .call span e.byName (exprsByName es) := rfl

@[simp] theorem Expr.byName_closure :
    (Expr.closure span function).byName = .closure span function.byName := rfl

@[simp] theorem Expr.byName_unary (op : UnaryOp) :
    (Expr.unary span op e).byName = .unary span op e.byName := rfl

@[simp] theorem Expr.byName_binary (op : BinaryOp) :
    (Expr.binary span op left right).byName = .binary span op left.byName right.byName := rfl

@[simp] theorem Stmt.byName_define :
    (Stmt.define span name e).byName = .define span name e.byName := rfl

@[simp] theorem Stmt.byName_assignLexical :
    (Stmt.assignLexical span ref e).byName = .assignLexical span ref e.byName := rfl

@[simp] theorem Stmt.byName_assignGlobal :
    (Stmt.assignGlobal span cell e).byName = .assignGlobal span cell.byName e.byName := rfl

@[simp] theorem Stmt.byName_expr : (Stmt.expr e).byName = .expr e.byName := rfl

@[simp] theorem Stmt.byName_ret : (Stmt.ret span (some e)).byName = .ret span (some e.byName) := rfl

@[simp] theorem Stmt.byName_block : (Stmt.block body).byName = .block body.byName := rfl

@[simp] theorem Stmt.byName_cond : (Stmt.cond span e yes none).byName
    = .cond span e.byName yes.byName none := rfl

@[simp] theorem Stmt.byName_cond_else : (Stmt.cond span e yes (some no)).byName
    = .cond span e.byName yes.byName (some no.byName) := rfl

@[simp] theorem Stmt.byName_loop :
    (Stmt.loop span e body).byName = .loop span e.byName body.byName := rfl

@[simp] theorem Block.byName_mk :
    (Block.mk span ss).byName = .mk span (stmtsByName ss) := rfl

@[simp] theorem Function.byName_mk (name : Option String) (params : List String) :
    (Function.mk span name params body).byName = .mk span name params body.byName := rfl

end

/-! ## Equal by name -/

theorem exprsByName_eq_map (es : List Expr) : exprsByName es = es.map Expr.byName := by
  induction es with
  | nil => rfl
  | cons e es ih => rw [exprsByName_cons, ih, List.map_cons]

theorem stmtsByName_eq_map (ss : List Stmt) : stmtsByName ss = ss.map Stmt.byName := by
  induction ss with
  | nil => rfl
  | cons s ss ih => rw [stmtsByName_cons, ih, List.map_cons]

theorem exprsByName_reverse (es : List Expr) :
    exprsByName es.reverse = (exprsByName es).reverse := by
  rw [exprsByName_eq_map, exprsByName_eq_map, List.map_reverse]

theorem stmtsByName_reverse (ss : List Stmt) :
    stmtsByName ss.reverse = (stmtsByName ss).reverse := by
  rw [stmtsByName_eq_map, stmtsByName_eq_map, List.map_reverse]

@[simp] theorem Expr.byName_span (e : Expr) : e.byName.span = e.span := by
  cases e <;> rfl

@[simp] theorem Block.byName_span (b : Block) : b.byName.span = b.span := by
  cases b
  rfl

@[simp] theorem Function.byName_span (f : Function) : f.byName.span = f.span := by
  cases f
  rfl

@[simp] theorem Stmt.byName_span (s : Stmt) : s.byName.span = s.span := by
  cases s with
  | expr e => exact e.byName_span
  | ret span value => cases value <;> rfl
  | block body => exact body.byName_span
  | cond span test yes no => cases no <;> rfl
  | define | assignLexical | assignGlobal | loop => rfl

theorem Expr.byName_withSpan (e : Expr) (span : Span) :
    (e.withSpan span).byName = e.byName.withSpan span := by
  cases e <;> rfl

theorem Expr.eq_lexical_of_byName {e : Expr} {span : Span} {ref : LexicalRef}
    (h : e.byName = (Expr.lexical span ref).byName) : e = .lexical span ref := by
  cases e with
  | lexical => exact h
  | nil | bool | int | str | list | global | call | closure | unary | binary => cases h

theorem Expr.eq_global_of_byName {e : Expr} {span : Span} {cell : CellRef}
    (h : e.byName = (Expr.global span cell).byName) :
    ∃ cell', e = .global span cell' ∧ cell'.byName = cell.byName := by
  cases e with
  | global span' cell' =>
      obtain ⟨rfl, hcell⟩ := Expr.global.inj h
      exact ⟨cell', rfl, hcell⟩
  | nil | bool | int | str | list | lexical | call | closure | unary | binary => cases h

end TwoPhase
