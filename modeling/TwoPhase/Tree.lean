import TwoPhase.Span

/-!
# Constructed code

The tree that construction leaves behind.  `sub` and `begin` act while a unit is constructed and
leave nothing.  Names are resolved already: a name refers to a declaration around it, or it holds
the global cell that it meant at that point of the construction.  A later rebinding of the name does
not change what constructed code calls.

Every node records its span in the final text of its unit.
-/

namespace TwoPhase

/-- A global cell, and the name it was made for. -/
structure CellRef where
  id : Nat
  name : String
  deriving DecidableEq, Inhabited, Repr

/-- A lexical name, and the declaration that it refers to: the last one of that name before the
reference, in the innermost scope that has one. -/
structure LexicalRef where
  name : String
  /-- How many declarations precede the reference in each scope, from the innermost one out to that
  of the declaration. -/
  seen : List Nat
  /-- How many of these scopes belong to the function around the reference, which captures the
  others. -/
  own : Nat
  /-- How many declarations precede the declaration in its scope. -/
  index : Nat
  deriving DecidableEq, Inhabited, Repr

instance : Coe LexicalRef String := ⟨LexicalRef.name⟩

inductive UnaryOp where
  | neg
  | not
  deriving DecidableEq, Inhabited, Repr

def UnaryOp.symbol : UnaryOp → String
  | neg => "-"
  | not => "!"

inductive BinaryOp where
  | mul
  | div
  | mod
  | add
  | sub
  | less
  | lessEqual
  | greater
  | greaterEqual
  | equal
  | notEqual
  | and
  | or
  deriving DecidableEq, Inhabited, Repr

def BinaryOp.symbol : BinaryOp → String
  | mul => "*"
  | div => "/"
  | mod => "%"
  | add => "+"
  | sub => "-"
  | less => "<"
  | lessEqual => "<="
  | greater => ">"
  | greaterEqual => ">="
  | equal => "=="
  | notEqual => "!="
  | and => "&&"
  | or => "||"

mutual

inductive Expr where
  | nil (span : Span)
  | bool (span : Span) (value : Bool)
  | int (span : Span) (value : Int64)
  | str (span : Span) (value : String)
  | list (span : Span) (items : List Expr)
  /-- A variable of an enclosing `let` or parameter list. -/
  | lexical (span : Span) (ref : LexicalRef)
  | global (span : Span) (cell : CellRef)
  | call (span : Span) (callee : Expr) (args : List Expr)
  /-- `fn(params) { body }`, which captures the enclosing lexicals. -/
  | closure (span : Span) (function : Function)
  | unary (span : Span) (op : UnaryOp) (operand : Expr)
  | binary (span : Span) (op : BinaryOp) (left right : Expr)

inductive Stmt where
  | define (span : Span) (name : String) (value : Expr)
  | assignLexical (span : Span) (ref : LexicalRef) (value : Expr)
  | assignGlobal (span : Span) (cell : CellRef) (value : Expr)
  | expr (expr : Expr)
  | ret (span : Span) (value : Option Expr)
  | block (body : Block)
  | cond (span : Span) (test : Expr) (yes : Block) (no : Option Block)
  | loop (span : Span) (test : Expr) (body : Block)

/-- Statements in braces, or a whole unit. -/
inductive Block where
  | mk (span : Span) (stmts : List Stmt)

/-- A `sub`, or a closure, which has no name. -/
inductive Function where
  | mk (span : Span) (name : Option String) (params : List String) (body : Block)

end

instance : Inhabited Expr := ⟨.nil default⟩
instance : Inhabited Block := ⟨.mk default []⟩
instance : Inhabited Stmt := ⟨.block default⟩
instance : Inhabited Function := ⟨.mk default none [] default⟩

namespace Block

def span : Block → Span
  | mk span _ => span

def stmts : Block → List Stmt
  | mk _ stmts => stmts

end Block

namespace Function

def span : Function → Span
  | mk span _ _ _ => span

def name? : Function → Option String
  | mk _ name _ _ => name

def params : Function → List String
  | mk _ _ params _ => params

def body : Function → Block
  | mk _ _ _ body => body

end Function

namespace Expr

def span : Expr → Span
  | nil s => s
  | bool s _ => s
  | int s _ => s
  | str s _ => s
  | list s _ => s
  | lexical s _ => s
  | global s _ => s
  | call s _ _ => s
  | closure s _ => s
  | unary s _ _ => s
  | binary s _ _ _ => s

/-- The same expression at another span, such as that of the parentheses around it. -/
def withSpan (s : Span) : Expr → Expr
  | nil _ => nil s
  | bool _ value => bool s value
  | int _ value => int s value
  | str _ value => str s value
  | list _ items => list s items
  | lexical _ ref => lexical s ref
  | global _ cell => global s cell
  | call _ callee args => call s callee args
  | closure _ function => closure s function
  | unary _ op operand => unary s op operand
  | binary _ op left right => binary s op left right

end Expr

namespace Stmt

def span : Stmt → Span
  | define s _ _ => s
  | assignLexical s _ _ => s
  | assignGlobal s _ _ => s
  | expr e => e.span
  | ret s _ => s
  | block body => body.span
  | cond s _ _ _ => s
  | loop s _ _ => s

end Stmt

end TwoPhase
