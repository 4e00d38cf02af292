import TwoPhase.Interpreter.Native

/-!
# Calls

A call of a sub runs its body in a frame and a scope of its own.  A call of a dispatch function runs
the blocks put off to it, in order, and queues those for the exit of the innermost block at work.  A
dispatch function called while no block is at work is itself the block that they wait for.
-/

namespace TwoPhase.Interpreter

variable (rounds : Nat) (again : Again)

/-- Runs a block in a scope of its own. -/
@[inline] def scopedBlock (body : Block) : Eval Flow := inBlockScope (again (.block body))

/-- Binds parameters to arguments in the current scope. -/
def bindParams : List String → List Value → Eval Unit
  | param :: params, arg :: args => do
    modify fun s => { s with env := s.env.define param arg }
    bindParams params args
  | _, _ => pure ()

/-- Calls a sub in a given frame.  A body that ends without `return` gives `nil`. -/
def callSub (sub : Sub) (args : List Value) (frame : Frame) : Eval Value := do
  let params := sub.function.params
  if params.length != args.length then raise (.arity sub.name params.length args.length)
  let flow ← inCodeOf sub.unit (inFrame frame sub.captured (do
    bindParams params args
    scopedBlock again sub.function.body))
  match flow with
  | .ret value => return value
  | .normal _ => return .nil

/-- Runs a block that was put off, in a frame named by its label. -/
def runDeferred (block : DeferredBlock) (span : Span) : Eval Value :=
  let frame : Frame := ⟨block.label, .hook, some span⟩
  match block.callable with
  | .sub sub => callSub again sub [] frame
  | .native native => inFrame frame none (again (.native native []))
  | value => raise (.notCallable value.typeName)

/-- Runs the blocks that waited for an exit.  All of them run; the first error wins, and the result
of the block that exits comes before theirs. -/
def runExits (span : Span) (result : Except EvalError Flow) : List DeferredBlock → Eval Flow
  | [] => Run.ofExcept result
  | block :: blocks => do
    modify (·.invoke block)
    let ended ← Run.attempt (runDeferred again block span)
    let result := match result, ended with
      | .ok _, .error e => .error e
      | _, _ => result
    runExits span result blocks

/-- Opens a list of blocks that wait for an exit. -/
def openExits : Eval Unit := modify fun s => { s with exits := [] :: s.exits }

/-- Closes the innermost list of blocks that wait for an exit, and gives it. -/
def closeExits : Eval (List DeferredBlock) :=
  modifyGet fun s => (s.exits.headD [], { s with exits := s.exits.tail })

/-- Makes a block wait for the exit of the innermost block at work. -/
def awaitExit (block : DeferredBlock) : Eval Unit := modify (·.await block)

/-- Runs code as a block that others may wait for. -/
@[inline] def withExits (span : Span) (body : Eval Flow) : Eval Flow := do
  openExits
  let result ← Run.attempt body
  let blocks ← closeExits
  runExits again span result blocks

/-- Runs or queues a hook, as a dispatch call reaches it. -/
def reachHook (span : Span) : Hook DeferredBlock → Eval Unit
  | .atRuntime block => do let _ ← runDeferred again block span
  | .afterRuntime block => awaitExit block

/-- Calls a dispatch function. -/
def callDispatch (fn : DispatchFn) (span : Span) : Eval Value := do
  let body : Eval Flow := do
    withFrame ⟨dispatchName, .dispatch, some span⟩ (traced
      (Pending.visitAll (fun s => s.deferral.pending) rounds fn (reachHook again span)))
    return .normal .nil
  let flow ← if (← get).exits.isEmpty then withExits again span body else body
  return flow.value

/-- Calls a value. -/
def callValue (callee : Value) (args : List Value) (span : Span) : Eval Value :=
  match callee with
  | .sub sub => callSub again sub args ⟨sub.name, .sub, some span⟩
  | .native native => again (.native native args)
  | .dispatch fn =>
    if args.isEmpty then callDispatch rounds again fn span
    else raise (.arity dispatchName 0 args.length)
  | value => raise (.notCallable value.typeName)

end TwoPhase.Interpreter
