import TwoPhase.Interpreter.Eval

/-!
# Putting blocks off

What subs can do to the unit under construction: put blocks off, splice text in, and clear a depth.
A refusal is raised as a fault.
-/

namespace TwoPhase.Interpreter

/-- Raises a hook error as a fault. -/
def orHookFault {α : Type} (result : Except HookError α) : Eval α :=
  orRaise (result.mapError Fault.hook)

/-- The frame name of a block put off: the unit it is put off from, and when it runs. -/
def hookLabel (s : State) (after : Bool) : String :=
  let time := if after then "after_runtime" else "at_runtime"
  s!"{s.unitName}::({time})"

/-- Puts a callable off: to the matching point of run time, or to the exit of the block around
it. -/
def defer (callable : Value) (after : Bool) : Eval Unit := do
  if !callable.isCallable then raise (.notCallable callable.typeName)
  let s ← get
  let block : DeferredBlock := ⟨callable, hookLabel s after⟩
  let hook : Hook DeferredBlock := if after then .afterRuntime block else .atRuntime block
  let result ← modifyGet (·.withDeferral (·.defer State.site hook))
  let _ ← orHookFault result
  modify fun s => s.record (.deferred s.depth hook)

/-- Splices text into the unit under construction. -/
def lexStuff (text : String) : Eval Unit := do
  let s ← get
  let (result, s) := s.deferral.splice State.site text s
  set s
  orHookFault result
  modify fun s => s.record (.spliced text (s.deferral.pending.hasSlot s.depth))

/-- Clears the slot of a depth. -/
def clearDepth (depth : Nat) : Eval Unit := do
  let result ← modifyGet (·.withDeferral (·.clear State.site depth))
  orHookFault result
  modify (·.record (.cleared depth))

/-- Forgets the slots deeper than a depth. -/
def State.unwindTo (s : State) (depth : Nat) : State :=
  (s.withDeferral fun d s => ((), d.unwindTo site depth s)).2.record (.unwound depth)

end TwoPhase.Interpreter
