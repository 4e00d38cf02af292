import TwoPhase.Run
import TwoPhase.Deferral.Hook

/-!
# Pending hooks

Hooks wait in slots, one for every construction depth that has hooks pending.  The first hook at a
depth makes a slot with a new hook list; later ones join the list.  A slot that is cleared or
unwound is gone, but its list stays as it is for the code that was constructed to run it.

Slots are kept in an array by depth.  The place for depth zero is never filled, and the last place
of the array never empty.
-/

namespace TwoPhase

structure Pending (B : Type) where
  /-- Every hook list ever made, in order of making. -/
  lists : Array (Array (Hook B))
  /-- The dispatch function of each depth that has hooks pending. -/
  slots : Array (Option DispatchFn)

namespace Pending

variable {B : Type}

def empty : Pending B := ⟨#[], #[]⟩

instance : Inhabited (Pending B) := ⟨empty⟩

/-- The hooks of a list, in order of registration. -/
def hooks (p : Pending B) (fn : DispatchFn) : Array (Hook B) := p.lists.getD fn.list #[]

/-- The dispatch function of a depth that has hooks pending. -/
def dispatchAt? (p : Pending B) (depth : Nat) : Option DispatchFn := p.slots[depth]?.join

def hasSlot (p : Pending B) (depth : Nat) : Bool := (p.dispatchAt? depth).isSome

/-- The depths that have hooks pending, shallowest first. -/
def activeDepths (p : Pending B) : List Nat := (List.range p.slots.size).filter p.hasSlot

def isEmpty (p : Pending B) : Bool := p.slots.all (·.isNone)

/-- The dispatch function of the deepest slot from depth one to a given depth. -/
def deepest? (p : Pending B) : Nat → Option DispatchFn
  | 0 => none
  | depth + 1 =>
    match p.dispatchAt? (depth + 1) with
    | some fn => some fn
    | none => p.deepest? depth

/-- The dispatch function of the deepest slot no deeper than `depth`.  Past the array there is no
slot to look for. -/
def nearest? (p : Pending B) (depth : Nat) : Option DispatchFn :=
  p.deepest? (min depth p.slots.size)

/-- Drops empty places from the end of the slots. -/
def trim (slots : Array (Option DispatchFn)) : Array (Option DispatchFn) :=
  slots.popWhile (·.isNone)

/-- What became of an added hook. -/
inductive Added where
  /-- It opened a slot, whose dispatch function has yet to be called from somewhere. -/
  | opened (fn : DispatchFn)
  /-- It joined a slot. -/
  | joined
  deriving DecidableEq, Inhabited, Repr

/-- Adds a hook at a depth. -/
def add (p : Pending B) (depth : Nat) (hook : Hook B) : Except HookError Added × Pending B :=
  if depth = 0 then (.error .notConstructing, p)
  else match p.dispatchAt? depth with
    | some fn => (.ok .joined, { p with lists := p.lists.modify fn.list (·.push hook) })
    | none =>
      let fn : DispatchFn := ⟨p.lists.size, depth⟩
      let missing := depth + 1 - p.slots.size
      let slots := p.slots ++ Array.replicate missing none
      (.ok (.opened fn), ⟨p.lists.push #[hook], slots.setIfInBounds depth (some fn)⟩)

/-- Removes the slot of a depth.  Gives the dispatch function that takes its place: that of the
nearest shallower slot. -/
def clear (p : Pending B) (depth : Nat) : Except HookError (Option DispatchFn) × Pending B :=
  match p.dispatchAt? depth with
  | none => (.error (.noSlot depth), p)
  | some _ =>
    let p := { p with slots := trim (p.slots.setIfInBounds depth none) }
    (.ok (p.nearest? (depth - 1)), p)

/-- Removes all slots deeper than `depth`, and counts them. -/
def unwindTo (p : Pending B) (depth : Nat) : Nat × Pending B :=
  let removed := ((p.slots.extract (depth + 1) p.slots.size).filter (·.isSome)).size
  (removed, { p with slots := trim (p.slots.extract 0 (depth + 1)) })

/-- Visits the hooks of a list in order, up to the first error.  The list is read again before each
hook, so hooks that a visit adds to it are visited too. -/
def visitAll {σ ε : Type} (pending : σ → Pending B) (rounds : Nat) (fn : DispatchFn)
    (visit : Hook B → Run σ ε Unit) : Run σ ε Unit :=
  Run.iterate rounds (fun index => do
    match ((pending (← get)).hooks fn)[index]? with
    | none => return .done ()
    | some hook =>
      visit hook
      return .next (index + 1)) 0

end Pending

end TwoPhase
