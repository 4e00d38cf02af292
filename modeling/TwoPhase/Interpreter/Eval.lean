import TwoPhase.Run
import TwoPhase.Interpreter.State

/-!
# Running code

Code runs in a state and ends with a value or a located fault.  The frames, scopes and blocks it
enters are left again whether it fails or not.

As in the grammar, the functions that run code are functions of `again`, which runs the parts that
may nest, and `Interpreter.run` ties the knot.
-/

namespace TwoPhase

/-- Code that runs in an interpreter. -/
abbrev Eval := Run Interpreter.State EvalError

namespace Interpreter

variable {α : Type}

/-- How statements end. -/
inductive Flow where
  /-- At the end, with the value of the last one. -/
  | normal (value : Value)
  /-- At a `return`. -/
  | ret (value : Value)
  deriving Inhabited

def Flow.value : Flow → Value
  | normal value => value
  | ret value => value

/-- The parts of a program whose runs may contain each other. -/
inductive Work : Type → Type where
  | expr (e : Expr) : Work Value
  /-- A block, in the current scope. -/
  | block (b : Block) : Work Flow
  | call (callee : Value) (args : List Value) (span : Span) : Work Value
  | native (native : Native) (args : List Value) : Work Value

/-- A way to run the parts that may nest. -/
abbrev Again := ∀ {α : Type}, Work α → Eval α

/-! ## Faults -/

@[inline] def raise (fault : Fault) : Eval α := fun s => .error (s.raised fault) s

/-- Ends with a value, or raises a fault. -/
@[inline] def orRaise (result : Except Fault α) : Eval α :=
  match result with
  | .ok value => pure value
  | .error fault => raise fault

/-- Gives errors of `body` a backtrace. -/
@[inline] def traced (body : Eval α) : Eval α :=
  Run.mapError body fun s e => s.calls.attachBacktrace e

/-- Locates errors of `body`, and gives them a backtrace. -/
@[inline] def located (span : Span) (body : Eval α) : Eval α :=
  Run.mapError body fun s e => s.calls.attachBacktrace (s.locate span e)

/-! ## Entering and leaving -/

/-- Runs code of another unit; code of no unit belongs to the one that calls it. -/
def inCodeOf (unit : Option UnitId) (body : Eval α) : Eval α :=
  match unit with
  | none => body
  | some id => do
    let outer := (← get).currentUnit
    modify fun s => { s with currentUnit := some id }
    Run.ensuring body fun s => { s with currentUnit := outer }

/-- Runs code in a scope inside the current one. -/
@[inline] def inBlockScope (body : Eval α) : Eval α := do
  modify fun s => { s with env := s.env.push }
  Run.ensuring body fun s => { s with env := s.env.pop }

/-- Runs code in a scope that does not see the current one, but `parent` if there is one. -/
@[inline] def inDetachedScope (parent : Option ScopeId) (body : Eval α) : Eval α := do
  modify fun s => { s with env := s.env.pushDetached parent }
  Run.ensuring body fun s => { s with env := s.env.pop }

/-- The current scope, for a closure to keep. -/
def captureScope : Eval ScopeId := modifyGet fun s =>
  let (scope, env) := s.env.capture
  (scope, { s with env })

/-- Pushes a call frame, unless that passes the limit. -/
@[inline] def pushFrame (frame : Frame) : Eval Unit := fun s =>
  match s.calls.push frame with
  | .ok calls => .value () { s with calls }
  | .error fault => .error (s.raised fault) s

/-- Runs code with a frame on the call stack. -/
@[inline] def withFrame (frame : Frame) (body : Eval α) : Eval α := do
  pushFrame frame
  Run.ensuring body fun s => { s with calls := s.calls.pop }

/-- Runs code as a call: in a frame, in a scope detached from the caller's. -/
@[inline] def inFrame (frame : Frame) (parent : Option ScopeId) (body : Eval α) : Eval α :=
  withFrame frame (traced (inDetachedScope parent body))

/-- A number for a new sub. -/
def freshId : Eval Nat := modifyGet fun s => (s.nextId, { s with nextId := s.nextId + 1 })

end Interpreter

end TwoPhase
