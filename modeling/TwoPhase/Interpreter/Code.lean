import TwoPhase.Arithmetic
import TwoPhase.Interpreter.Call

/-!
# Statements and expressions

Every fault is located at the innermost expression it passes through.  A block ends with the blocks
that waited for its exit, whether it failed or not.
-/

namespace TwoPhase.Interpreter

variable (rounds : Nat) (again : Again)

/-! ## Expressions -/

/-- The values of several expressions, from left to right, behind those that are known already. -/
def exprs (values : Array Value) : List Expr → Eval (Array Value)
  | [] => return values
  | e :: es => do
    let value ← again (.expr e)
    exprs (values.push value) es

/-- The value of a cell.  A dispatch function cannot be loaded. -/
def loadGlobal (cell : CellRef) : Eval Value := do
  match (← get).globals.value? cell with
  | some (.dispatch _) => raise .dispatchAsValue
  | some value => return value
  | none => raise (.undefinedVariable (.global cell.name))

/-- The value of a lexical name: that of the innermost variable that has the name now. -/
def loadLexical (name : String) : Eval Value := do
  match (← get).env.lookup? name with
  | some value => return value
  | none => raise (.undefinedVariable (.lexical name))

/-- What a call calls.  A global is read straight from its cell, so a dispatch function can be
called although it cannot be loaded. -/
def callee (e : Expr) : Eval Value :=
  match e with
  | .global span cell => do
    let s ← get
    match s.globals.value? cell with
    | some value => return value
    | none => throw (s.locate span (s.raised (.undefinedSub cell.name)))
  | _ => again (.expr e)

/-- The name of closures in call frames. -/
def closureName : String := "__ANON__"

/-- A closure made here and now. -/
def closure (function : Function) : Eval Value := do
  let id ← freshId
  let scope ← captureScope
  return .sub ⟨id, closureName, function, some scope, (← get).currentUnit⟩

/-- The value of an expression, errors not yet located. -/
def exprValue (e : Expr) : Eval Value :=
  match e with
  | .nil _ => return .nil
  | .bool _ value => return .bool value
  | .int _ value => return .int value
  | .str _ value => return .str value
  | .list _ items => return .list (← exprs again #[] items)
  | .lexical _ ref => loadLexical ref.name
  | .global _ cell => loadGlobal cell
  | .call span target args => do
    let f ← callee again target
    let values ← exprs again #[] args
    callValue rounds again f values.toList span
  | .closure _ function => closure function
  | .unary _ op operand => do
    let value ← again (.expr operand)
    orRaise (op.apply value)
  | .binary _ op left right => do
    let a ← again (.expr left)
    match op with
    | .and => if a.isTruthy then again (.expr right) else return a
    | .or => if a.isTruthy then return a else again (.expr right)
    | _ =>
      let b ← again (.expr right)
      orRaise (op.apply a b)

/-- The value of an expression. -/
def expr (e : Expr) : Eval Value := located e.span (exprValue rounds again e)

/-! ## Statements -/

/-- Gives a new value to a lexical name. -/
def assignLexical (span : Span) (name : String) (value : Value) : Eval Unit := do
  let s ← get
  match s.env.definer? name s.env.current with
  | some owner => modify fun s => { s with env := s.env.assignIn owner name value }
  | none => throw (s.locate span (s.raised (.undefinedVariable (.lexical name))))

/-- Runs a block in a scope of its own for its effects; only a `return` gets out of it. -/
def inner (body : Block) : Eval Flow := do
  match ← scopedBlock again body with
  | .ret value => return .ret value
  | .normal _ => return .normal .nil

def stmt (statement : Stmt) : Eval Flow :=
  match statement with
  | .define _ name value => do
    let v ← again (.expr value)
    modify fun s => { s with env := s.env.define name v }
    return .normal .nil
  | .assignLexical span ref value => do
    let v ← again (.expr value)
    assignLexical span ref.name v
    return .normal .nil
  | .assignGlobal _ cell value => do
    let v ← again (.expr value)
    modify fun s => { s with globals := s.globals.set cell v }
    return .normal .nil
  | .expr e => return .normal (← again (.expr e))
  | .ret _ none => return .ret .nil
  | .ret _ (some e) => return .ret (← again (.expr e))
  | .block body => inner again body
  | .cond _ test yes no => do
    let value ← again (.expr test)
    if value.isTruthy then inner again yes
    else match no with
      | some body => inner again body
      | none => return .normal .nil
  | .loop _ test body =>
    Run.iterate rounds (fun () => do
      let value ← again (.expr test)
      if !value.isTruthy then return .done (.normal .nil)
      match ← scopedBlock again body with
      | .ret value => return .done (.ret value)
      | .normal _ => return .next ()) ()

/-- Runs statements in order, up to a `return`.  Gives the value of the last. -/
def stmts (last : Value) : List Stmt → Eval Flow
  | [] => return .normal last
  | s :: more => do
    match ← stmt rounds again s with
    | .normal value => stmts value more
    | .ret value => return .ret value

/-- Runs a block in the current scope, then what waited for its exit. -/
def block (b : Block) : Eval Flow := withExits again b.span (stmts rounds again .nil b.stmts)

/-! ## Nesting -/

/-- Runs a part of a program, given how to run the parts inside it. -/
def perform : {α : Type} → Work α → Eval α
  | _, .expr e => expr rounds again e
  | _, .block b => block rounds again b
  | _, .call f args span => callValue rounds again f args span
  | _, .native native args => callNative rounds again native args

/-- Runs a part of a program that nests no deeper than a bound. -/
def run : Nat → {α : Type} → Work α → Eval α
  | 0, _, _ => Run.cutOff
  | bound + 1, _, work => fun s =>
    Stack.atLevel (bound - s.nesting) fun _ => perform bound (run bound) work s

@[simp] theorem run_succ {α : Type} (bound : Nat) (work : Work α) :
    run (bound + 1) work = perform bound (run bound) work := by
  funext s
  simp [run]

end TwoPhase.Interpreter
