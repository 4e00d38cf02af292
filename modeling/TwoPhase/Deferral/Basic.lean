import TwoPhase.Deferral.Pending
import TwoPhase.Deferral.InjectionMode

/-!
# Deferral

A block put off while a unit is constructed becomes a call of a dispatch function at the same place
of the unit.  The first block at a depth splices that call into the unit, followed by a `begin` that
clears the depth again: once it has run, the next block starts a new dispatch function further on.

A site is the place where this happens: it knows the construction depth, splices text into the unit,
and binds the dispatch name.  Everything is checked, and the text is spliced in, before the pending
hooks change.
-/

namespace TwoPhase

/-- The name under which constructed code calls the dispatch function. -/
def dispatchName : String := "at_runtime::dispatch"

/-- The name of the sub that the clearing marker calls. -/
def clearName : String := "at_runtime::clear"

/-- The marker that clears a depth. -/
def clearFragment (depth : Nat) : String := s!"begin \x7b {clearName}({depth}) \x7d"

/-- The text that calls the dispatch function of a depth and then clears the depth. -/
def dispatchFragment (depth : Nat) : String := s!"{dispatchName}(); " ++ clearFragment depth

/-- What deferral needs of the place where a unit is constructed. -/
structure Site (σ : Type) where
  /-- The number of `begin` blocks at work. -/
  depth : σ → Nat
  /-- Whether the innermost unit is an evaluated string. -/
  inStringEval : σ → Bool
  /-- Binds the dispatch name to a new function. -/
  bind : DispatchFn → σ → σ
  /-- Binds the dispatch name to an earlier function, or to none. -/
  unbindTo : Option DispatchFn → σ → σ
  /-- Splices text into the innermost unit. -/
  inject : InjectionMode → String → σ → Except InjectError Unit × σ

/-- The pending hooks, and the mode in which text is spliced in. -/
structure Deferral (B : Type) where
  pending : Pending B
  mode : InjectionMode

namespace Deferral

variable {B σ : Type}

/-- Nothing is pending. -/
def new (mode : InjectionMode) : Deferral B := ⟨.empty, mode⟩

instance : Inhabited (Deferral B) := ⟨new .precise⟩

/-- Puts a hook off at the current depth of the site. -/
def defer (site : Site σ) (hook : Hook B) (d : Deferral B) (s : σ) :
    Except HookError Pending.Added × Deferral B × σ :=
  let depth := site.depth s
  if depth = 0 then (.error .notConstructing, d, s)
  else if site.inStringEval s then (.error .stringEval, d, s)
  else if d.pending.hasSlot depth then
    let (result, pending) := d.pending.add depth hook
    (result, { d with pending }, s)
  else match site.inject d.mode (dispatchFragment depth) s with
    | (.error e, s) => (.error (.inject e), d, s)
    | (.ok (), s) =>
      let (result, pending) := d.pending.add depth hook
      let s := match result with
        | .ok (.opened fn) => site.bind fn s
        | _ => s
      (result, { d with pending }, s)

/-- Splices text into the unit as it is. -/
def splice (site : Site σ) (text : String) (d : Deferral B) (s : σ) : Except HookError Unit × σ :=
  match site.inject d.mode text s with
  | (.error e, s) => (.error (.inject e), s)
  | (.ok (), s) => (.ok (), s)

/-- What the clearing marker does: removes the slot of a depth, and binds the dispatch name to the
function of the nearest shallower one. -/
def clear (site : Site σ) (depth : Nat) (d : Deferral B) (s : σ) :
    Except HookError Unit × Deferral B × σ :=
  match d.pending.clear depth with
  | (.error e, pending) => (.error e, { d with pending }, s)
  | (.ok parent, pending) => (.ok (), { d with pending }, site.unbindTo parent s)

/-- Forgets all slots deeper than `depth`, after a construction that was given up. -/
def unwindTo (site : Site σ) (depth : Nat) (d : Deferral B) (s : σ) : Deferral B × σ :=
  let (removed, pending) := d.pending.unwindTo depth
  let s := if removed = 0 then s else site.unbindTo (pending.nearest? depth) s
  ({ d with pending }, s)

end Deferral

end TwoPhase
