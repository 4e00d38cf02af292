import TwoPhase.Proofs.Interpreter.Within
import TwoPhase.Proofs.Live

/-!
# Restoration

A request enters and leaves scopes, frames, units, depths and lists of waiting blocks on the way,
with a way out by an error at every point.  When it ends, all of them are as they were.
-/

namespace TwoPhase

open Interpreter
open Session (Request)
open Run (Keeps Triple)

variable {s t : State}

/-- All stacks are as they were, and the call stack has kept to its limit. -/
structure StacksRestored (s t : State) : Prop where
  depth : t.depth = s.depth
  /-- The same units; text may have been spliced into the innermost one. -/
  units : Widened s.units t.units
  /-- The same scopes at work in the same order, each with the same parent and no name missing. -/
  scopes : s.env.Restored t.env
  frames : t.calls.frames = s.calls.frames
  limit : t.calls.limit = s.calls.limit
  /-- There have never been more frames than the limit. -/
  bounded : t.calls.Bounded
  exits : t.exits.length = s.exits.length
  currentUnit : t.currentUnit = s.currentUnit

/-- What the operations of running code keep, a request keeps. -/
theorem Session.Request.keeps {bound : Nat} {I : State → Prop}
    (hrespects : Respects bound (Interpreter.run bound) I) (request : Request) :
    Keeps I (request.run bound) := by
  have hcompile : ∀ source name path, Keeps I (Session.compile bound source name path) :=
    fun source name path t ht => hrespects.construct (name.getD t.mainUnit) .main path source t ht
  have hmap : ∀ {ε α β : Type} {body : Run State ε α} (f : α → β), Keeps I body →
      Keeps I (f <$> body) := by
    intro ε α β body f hbody
    rw [map_eq_pure_bind]
    exact hbody.bind fun _ => .pure _
  cases request with
  | compile source name path => exact hmap _ ((hcompile source name path).mapError _)
  | execute unit => exact hmap _ ((hrespects.execute unit).mapError _)
  | runSource source =>
      exact hmap _ (((hcompile source none none).mapError _).bind fun unit =>
        (hrespects.execute unit).mapError _)
  | call callee args => exact hmap _ ((hrespects.callValue callee args _).mapError _)
  | eval text => exact hmap _ ((hrespects.evalString text).mapError _)
  | require name => exact hmap _ ((hrespects.require name).mapError _)
  | defer callable after => exact hmap _ ((hrespects.defer callable after).mapError _)
  | lexStuff text => exact hmap _ ((hrespects.splice text).mapError _)

/-- A request reaches no further than its depth allows. -/
theorem Session.Request.within (bound : Nat) (request : Request) (s : State) :
    Keeps (Within s) (request.run bound) :=
  request.keeps (run_respects bound s)

/-- A request on a live state restores all stacks, whether it succeeds or not. -/
theorem request_restores_stacks (h : Live s) (bound : Nat) (request : Request) :
    Triple (· = s) (request.run bound) (fun _ => StacksRestored s) (fun _ => StacksRestored s) := by
  have hend : ∀ t, Restored s t → Within s t → StacksRestored s t := fun t hrestored hwithin =>
    { depth := hrestored.depth
      units := hwithin.units
      scopes := hrestored.env
      frames := hrestored.frames
      limit := hrestored.limit
      bounded := hrestored.limited h.aligned.bounded
      exits := hrestored.exits
      currentUnit := hrestored.currentUnit }
  refine Triple.weaken (Triple.and (request.restores bound s) (request.within bound s)) ?_
    (fun _ t ht => hend t ht.1 ht.2) (fun _ t ht => hend t ht.1 ht.2)
  intro u hu
  exact ⟨hu ▸ .refl s, hu ▸ .refl s⟩

/-- A `begin` block that recurses until no frame is left to push leaves nothing entered. -/
theorem request_restores_after_overflow : ∃ e t,
    (Request.runSource "sub f() { f(); } begin { after_runtime(f); f(); }").run 30
        (Session.start { Settings.default with callLimit := some 3 }) = .error e t ∧
      t.calls.peak = 3 ∧
      StacksRestored (Session.start { Settings.default with callLimit := some 3 }) t := by
  have htest : ((Request.runSource "sub f() { f(); } begin { after_runtime(f); f(); }").run 30
      (Session.start { Settings.default with callLimit := some 3 })).errorWith
        (fun _ t => t.calls.peak = 3) = true := by
    decide +kernel
  obtain ⟨e, t, herror, hpeak⟩ := Run.Outcome.exists_error htest
  have hrestored := (request_restores_stacks (.start _) 30 _).error rfl herror
  exact ⟨e, t, herror, of_decide_eq_true hpeak, hrestored⟩

end TwoPhase
