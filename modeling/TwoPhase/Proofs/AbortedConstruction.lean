import TwoPhase.Proofs.Reachable

/-!
# Aborted constructions

A construction that fails can fail anywhere: in the parser, in a `begin` block, in a unit that such
a block constructs.  Slots that were opened for it would wait for a marker that nobody parses any
more, so they are unwound, and the dispatch name goes back to the nearest slot that is left.

Unwinding removes exactly the slots deeper than where the construction started.  That the binding
agrees with the slots afterwards is the soundness of cores, which every step of a session keeps.
-/

namespace TwoPhase

open Interpreter

variable {bound : Nat} {name : String} {origin : UnitOrigin} {path : Option String}
  {source : String} {s t : State} {e : CompileError}

theorem hooks_unwindTo (s : State) (depth : Nat) (fn : DispatchFn) :
    (s.unwindTo depth).deferral.pending.hooks fn = s.deferral.pending.hooks fn := by
  rcases unwindTo_cases depth s with ⟨_, h⟩ | ⟨_, h⟩ <;> rw [h] <;> rfl

/-- Where nothing is pending, sound cores have nothing bound. -/
theorem Interpreter.Core.Sound.unbound (h : s.core.Sound)
    (huntouched : s.globals.Untouched dispatchName)
    (hnone : ∀ k, s.deferral.pending.dispatchAt? k = none) :
    s.pendingDepths = [] ∧ s.boundDispatch? = none := by
  refine ⟨Pending.activeDepths_eq_nil hnone, ?_⟩
  cases hlookup : s.globals.lookup? dispatchName with
  | none => simp [State.boundDispatch?, hlookup]
  | some value =>
      obtain ⟨fn, _, hfn⟩ := h.dispatch huntouched hlookup
      have hat := hnone fn.depth
      rw [show s.core.pending = s.deferral.pending from rfl, hat] at hfn
      cases hfn

/-- A construction that fails leaves nothing behind: no slot deeper than where it started, all other
slots as the parser left them, and the dispatch name bound to a pending slot or to nothing. -/
theorem aborted_construction_leaves_nothing (hs : Reachable s)
    (herror : construct bound (run bound) name origin path source s = .error e t)
    (huntouched : t.globals.Untouched dispatchName) :
    (∀ k, s.depth < k → t.deferral.pending.dispatchAt? k = none) ∧
    (∃ e' p, Parser.runUnit (host bound (run bound)) bound
        (.start source (s.enterUnit name origin path source)) = .error e' p ∧
      ∀ k ≤ s.depth, ∀ fn, p.host.deferral.pending.dispatchAt? k = some fn →
        t.deferral.pending.dispatchAt? k = some fn ∧
          t.deferral.pending.hooks fn = p.host.deferral.pending.hooks fn) ∧
    (t.globals.lookup? dispatchName = none ∨
      ∃ fn, t.globals.lookup? dispatchName = some (.dispatch fn) ∧
        t.deferral.pending.dispatchAt? fn.depth = some fn) ∧
    (s.depth = 0 → t.pendingDepths = [] ∧ t.boundDispatch? = none) := by
  have hsound : t.core.Sound := by
    have hkeeps := @Reachable.construct bound name origin path source s hs
    rw [herror] at hkeeps
    exact hkeeps.sound
  -- whatever the parser left deeper than the start, giving the unit up unwinds
  obtain ⟨e', p, hparse, ht⟩ := construct_error herror
  have hdeeper : ∀ k, s.depth < k → t.deferral.pending.dispatchAt? k = none := by
    intro k hk
    rw [ht, dispatchAt?_unwindTo, if_neg (by omega)]
  refine ⟨hdeeper, ⟨e', p, hparse, fun k hk fn hfn => ?_⟩, ?_, fun hzero => ?_⟩
  · refine ⟨?_, ?_⟩
    · rw [ht, dispatchAt?_unwindTo, if_pos hk]
      exact hfn
    · rw [ht, hooks_unwindTo]
      rfl
  · cases hlookup : t.globals.lookup? dispatchName with
    | none => exact .inl rfl
    | some value =>
        obtain ⟨fn, hvalue, hfn⟩ := hsound.dispatch huntouched hlookup
        exact .inr ⟨fn, by rw [hvalue], hfn⟩
  · -- at depth zero no slot can be, and all others are deeper than the start
    refine hsound.unbound huntouched fun k => ?_
    rcases Nat.eq_zero_or_pos k with hk | hk
    · cases hslot : t.deferral.pending.dispatchAt? k with
      | none => rfl
      | some fn => exact absurd hk (hsound.pending.slot hslot).2.1
    · exact hdeeper k (by omega)

/-- A `begin` block that fails after it has put a block off leaves nothing pending. -/
theorem aborted_construction_after_deferral : ∃ e t,
    construct 30 (run 30) "main" .main none "begin { at_runtime(fn() { }); die(0); }"
        (Session.start .default) = .error e t ∧
      t.globals.Untouched dispatchName ∧ t.pendingDepths = [] ∧ t.boundDispatch? = none := by
  have htest : (construct 30 (run 30) "main" .main none "begin { at_runtime(fn() { }); die(0); }"
      (Session.start .default)).errorWith (fun _ t => t.globals.Untouched dispatchName) = true := by
    decide +kernel
  obtain ⟨e, t, herror, huntouched⟩ := Run.Outcome.exists_error htest
  have huntouched := of_decide_eq_true huntouched
  have hnothing := aborted_construction_leaves_nothing (.start .default) herror huntouched
  exact ⟨e, t, herror, huntouched, hnothing.2.2.2 rfl⟩

end TwoPhase
