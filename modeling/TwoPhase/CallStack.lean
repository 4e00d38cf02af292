import TwoPhase.Fault

/-!
# The call stack

A frame is pushed for every unit executed, `begin` block, sub call, dispatch call and block put off,
but not for native subs.  The stack may have a limit, which a push cannot pass.  An error takes a
backtrace from the stack once; it keeps the first, which is the deepest.
-/

namespace TwoPhase

structure CallStack where
  /-- The frames, innermost first. -/
  frames : List Frame
  limit : Option Nat
  /-- The number of frames. -/
  depth : Nat
  /-- The most frames there have been at any time. -/
  peak : Nat
  depth_eq : depth = frames.length

namespace CallStack

theorem depth_nil : 0 = ([] : List Frame).length := rfl

theorem depth_cons (c : CallStack) (frame : Frame) :
    c.depth + 1 = (frame :: c.frames).length := by
  simp [c.depth_eq]

/-- No frames, and a limit on their number. -/
def empty (limit : Option Nat) : CallStack := ⟨[], limit, 0, 0, depth_nil⟩

instance : Inhabited CallStack := ⟨empty none⟩

def isEmpty (c : CallStack) : Bool := c.depth == 0

/-- Pushes a frame, unless the limit is reached. -/
def push (c : CallStack) (frame : Frame) : Except Fault CallStack :=
  let pushed : CallStack :=
    ⟨frame :: c.frames, c.limit, c.depth + 1, max c.peak (c.depth + 1), c.depth_cons frame⟩
  match c.limit with
  | none => .ok pushed
  | some limit => if limit ≤ c.depth then .error (.callDepth limit) else .ok pushed

/-- Drops the innermost frame. -/
def pop (c : CallStack) : CallStack :=
  ⟨c.frames.tail, c.limit, c.depth - 1, c.peak, by simp [c.depth_eq]⟩

/-- The frame names, innermost first. -/
def names (c : CallStack) : List String := c.frames.map (·.name)

def capture (c : CallStack) : Backtrace := ⟨c.frames⟩

/-- Gives an error a backtrace, unless it has one or there are no frames. -/
def attachBacktrace (c : CallStack) (e : EvalError) : EvalError :=
  if e.backtrace.isSome || c.isEmpty then e else { e with backtrace := some c.capture }

end CallStack

end TwoPhase
