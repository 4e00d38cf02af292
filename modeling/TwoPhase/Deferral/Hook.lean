/-!
# Hooks

A hook is a block of code put off while a unit is constructed.  It runs when the constructed code
reaches the matching point, or when the block around that point exits.  The hooks put off at one
construction depth share one dispatch function, which runs them in order.
-/

namespace TwoPhase

/-- A block put off to run time. -/
inductive Hook (B : Type) where
  /-- Runs when the dispatch call is reached. -/
  | atRuntime (block : B)
  /-- Runs when the block around the dispatch call exits. -/
  | afterRuntime (block : B)
  deriving DecidableEq, Inhabited, Repr

namespace Hook

def block {B : Type} : Hook B → B
  | atRuntime block => block
  | afterRuntime block => block

end Hook

/-- The dispatch function of a construction depth; `list` tells it from all others. -/
structure DispatchFn where
  list : Nat
  depth : Nat
  deriving DecidableEq, Inhabited, Repr

/-- Why text could not be spliced into a unit. -/
inductive InjectError where
  | noUnit
  | stringEval
  deriving DecidableEq, Inhabited, Repr

namespace InjectError

def message : InjectError → String
  | noUnit => "no unit is being constructed"
  | stringEval => "cannot inject into a string-evaluated fragment"

end InjectError

/-- Why a block could not be put off, or a depth not be cleared. -/
inductive HookError where
  | notConstructing
  | stringEval
  | noSlot (depth : Nat)
  | inject (error : InjectError)
  deriving DecidableEq, Inhabited, Repr

namespace HookError

def message : HookError → String
  | notConstructing => "must be called while constructing a unit"
  | stringEval => "cannot defer to runtime from inside a string eval"
  | noSlot depth => s!"no pending hooks at depth {depth}"
  | inject error => error.message

end HookError

end TwoPhase
