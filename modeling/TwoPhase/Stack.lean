/-!
# Room for deep recursion

Programs may nest deeper than one native stack reaches.  A computation that counts its nesting can
move to a fresh stack now and then; its result is the same.
-/

namespace TwoPhase.Stack

/-- Computes a value on a stack of its own. -/
def fresh {α : Type} (compute : Unit → α) : α := (Task.spawn compute .dedicated).get

/-- How many levels of nesting share a stack. -/
def levels : Nat := Nat.pow 2 19

/-- Computes a value at a level of nesting, on a fresh stack at every level that needs one. -/
@[inline] def atLevel {α : Type} (level : Nat) (compute : Unit → α) : α :=
  if level % levels = 0 then fresh compute else compute ()

@[simp] theorem fresh_eq {α : Type} (compute : Unit → α) : fresh compute = compute () := rfl

@[simp] theorem atLevel_eq {α : Type} (level : Nat) (compute : Unit → α) :
    atLevel level compute = compute () := by
  simp [atLevel]

end TwoPhase.Stack
