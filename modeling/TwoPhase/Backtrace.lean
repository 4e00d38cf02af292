import TwoPhase.Span
import TwoPhase.Text.Blank

/-!
# Backtraces

A backtrace is the call stack as it was when an error was raised, innermost frame first.
-/

namespace TwoPhase

/-- What a call frame was pushed for. -/
inductive FrameKind where
  /-- A unit being executed. -/
  | unit
  /-- A `begin` block at work while its unit is constructed. -/
  | beginBlock
  /-- A call of a sub or closure. -/
  | sub
  /-- A call of a dispatch function. -/
  | dispatch
  /-- A block that was put off. -/
  | hook
  deriving DecidableEq, Inhabited, Repr

structure Frame where
  name : String
  kind : FrameKind
  /-- Where the call was made, if there is such a place. -/
  span : Option Span
  deriving DecidableEq, Inhabited, Repr

structure Backtrace where
  frames : List Frame
  deriving DecidableEq, Inhabited, Repr

namespace Backtrace

def isEmpty (b : Backtrace) : Bool := b.frames.isEmpty

def length (b : Backtrace) : Nat := b.frames.length

/-- One line per frame. -/
def frameLine (index : Nat) (frame : Frame) : String :=
  let place := match frame.span with
    | some span => " at " ++ span.render
    | none => ""
  s!"  {index}: {frame.name}{place}"

/-- All lines, heading first; an empty backtrace has none. -/
def lines (b : Backtrace) : List String :=
  if b.isEmpty then [] else "stack backtrace:" :: b.frames.mapIdx frameLine

/-- The written form. -/
def render (b : Backtrace) : String := String.join (b.lines.map (· ++ "\n"))

/-- The written form inside a note, which has no line end of its own. -/
def note (b : Backtrace) : String := Text.trimEnd b.render

end Backtrace

end TwoPhase
