import TwoPhase.Proofs.Interpreter.Core
import TwoPhase.Proofs.Splice
import TwoPhase.Proofs.Triple

/-!
# What deferral does

What putting a hook off, splicing text in, clearing a depth and unwinding can do to a state, each
said once and in full.  The first three leave the state as it is when they refuse.
-/

namespace TwoPhase.Interpreter

open Run (Triple)

variable {s t : State}

/-! ## Splicing -/

/-- A state with text spliced into its innermost unit, which is no evaluated string. -/
def Injected (text : String) (s t : State) : Prop :=
  ∃ unit outer warnings, s.units = unit :: outer ∧ unit.origin ≠ .stringEval ∧
    t = { s with
      units := { unit with buffer := unit.buffer.insert s.deferral.mode text } :: outer, warnings }

/-- Text is spliced in, or the state stays as it is. -/
theorem inject_cases (mode : InjectionMode) (text : String) (s : State) :
    (∃ e, State.inject mode text s = (.error e, s)) ∨
      ∃ unit outer warnings, s.units = unit :: outer ∧ unit.origin ≠ .stringEval ∧
        State.inject mode text s = (.ok (), { s with
          units := { unit with buffer := unit.buffer.insert mode text } :: outer, warnings }) := by
  have hunits : s.units = [] ∨ ∃ unit outer, s.units = unit :: outer := by
    cases s.units <;> simp
  rcases hunits with hunits | ⟨unit, outer, hunits⟩
  · exact .inl ⟨.noUnit, by simp [State.inject, hunits]⟩
  · by_cases horigin : unit.origin = .stringEval
    · exact .inl ⟨.stringEval, by simp [State.inject, hunits, horigin]⟩
    · refine .inr ⟨unit, outer, (State.inject mode text s).2.warnings, hunits, horigin, ?_⟩
      cases mode with
      | precise => simp [State.inject, hunits, horigin, Buffer.insert, Buffer.insertAtCursor]
      | line =>
          cases hwarning : (unit.buffer.insertNextLine text).1.warning <;>
            simp [State.inject, hunits, horigin, Buffer.insert, hwarning, State.warn]

/-- What splicing text in does, which is recorded with whether hooks are pending. -/
theorem lexStuff_cases (text : String) (s : State) :
    (∃ e, lexStuff text s = .error (s.raised (.hook e)) s) ∨
      ∃ t, Injected text s t ∧ lexStuff text s =
        .value () (t.record (.spliced text (s.deferral.pending.hasSlot s.depth))) := by
  simp only [lexStuff, Run.bind_apply, Run.get_apply, Run.set_apply, Deferral.splice, State.site]
  rcases inject_cases s.deferral.mode text s with
    ⟨e, hinject⟩ | ⟨unit, outer, warnings, hunits, horigin, hinject⟩
  · rw [hinject]
    exact .inl ⟨_, rfl⟩
  · rw [hinject]
    exact .inr ⟨_, ⟨unit, outer, warnings, hunits, horigin, rfl⟩, rfl⟩

/-! ## Putting off -/

/-- A state with a hook put off at its depth: to a slot that was pending, or to a new one whose
dispatch call has been spliced in. -/
inductive PutOff (hook : Hook DeferredBlock) (s : State) : State → Prop where
  | joined (fn : DispatchFn) (hdepth : s.depth ≠ 0)
      (hslot : s.deferral.pending.dispatchAt? s.depth = some fn) :
      PutOff hook s
        (State.record
          { s with deferral := ⟨(s.deferral.pending.add s.depth hook).2, s.deferral.mode⟩ }
          (.deferred s.depth hook))
  | opened {t : State} (hdepth : s.depth ≠ 0)
      (hslot : s.deferral.pending.dispatchAt? s.depth = none)
      (hinjected : Injected (dispatchFragment s.depth) s t) :
      PutOff hook s
        (State.record
          { t with
            globals := dispatchTo s.globals (some ⟨s.deferral.pending.lists.size, s.depth⟩)
            deferral := ⟨(s.deferral.pending.add s.depth hook).2, s.deferral.mode⟩ }
          (.deferred s.depth hook))

/-- What putting a hook off does where the deferral is out of the state. -/
theorem site_defer_cases (hook : Hook DeferredBlock) (d : Deferral DeferredBlock) (s : State) :
    (∃ e, d.defer State.site hook s = (.error e, d, s)) ∨
      s.depth ≠ 0 ∧ ((∃ fn, d.pending.dispatchAt? s.depth = some fn ∧
        d.defer State.site hook s
          = (.ok .joined, ⟨(d.pending.add s.depth hook).2, d.mode⟩, s)) ∨
      (d.pending.dispatchAt? s.depth = none ∧
        ∃ unit outer warnings, s.units = unit :: outer ∧ unit.origin ≠ .stringEval ∧
          d.defer State.site hook s =
            (.ok (.opened ⟨d.pending.lists.size, s.depth⟩),
              ⟨(d.pending.add s.depth hook).2, d.mode⟩,
              { s with
                globals := dispatchTo s.globals (some ⟨d.pending.lists.size, s.depth⟩)
                units := { unit with
                  buffer := unit.buffer.insert d.mode (dispatchFragment s.depth) } :: outer
                warnings }))) := by
  have hsite : State.site.depth s = s.depth := rfl
  unfold Deferral.defer
  rw [hsite]
  dsimp only
  by_cases hdepth : s.depth = 0
  · rw [if_pos hdepth]
    exact .inl ⟨_, rfl⟩
  rw [if_neg hdepth]
  by_cases hstring : State.site.inStringEval s = true
  · rw [if_pos hstring]
    exact .inl ⟨_, rfl⟩
  rw [if_neg hstring]
  -- only the hook that opens a slot needs a splice, and the splice can still be refused
  cases hslot : d.pending.dispatchAt? s.depth with
  | some fn =>
      rw [if_pos (by simp [Pending.hasSlot, hslot])]
      refine .inr ⟨hdepth, .inl ⟨fn, rfl, ?_⟩⟩
      rw [Pending.add_join hook hdepth hslot]
  | none =>
      rw [if_neg (by simp [Pending.hasSlot, hslot])]
      rcases inject_cases d.mode (dispatchFragment s.depth) s with
        ⟨e, hinject⟩ | ⟨unit, outer, warnings, hunits, horigin, hinject⟩
      · refine .inl ⟨.inject e, ?_⟩
        dsimp only [State.site]
        rw [hinject]
      · refine .inr ⟨hdepth, .inr ⟨rfl, unit, outer, warnings, hunits, horigin, ?_⟩⟩
        dsimp only [State.site]
        rw [hinject]
        dsimp only
        rw [Pending.add_open hook hdepth hslot]
        rfl

/-- What putting a callable off does.  It is refused by a fault of its own. -/
theorem defer_cases (callable : Value) (after : Bool) (s : State) :
    (∃ fault, defer callable after s = .error (s.raised fault) s ∧
        (fault = .notCallable callable.typeName ∨ ∃ e, fault = .hook e)) ∨
      ∃ hook t, PutOff hook s t ∧ defer callable after s = .value () t ∧
        hook.block.callable = callable := by
  cases hcallable : callable.isCallable with
  | false =>
      exact .inl ⟨.notCallable callable.typeName, by simp [defer, hcallable, raise], .inl rfl⟩
  | true =>
      simp only [defer, hcallable, Bool.not_true, Bool.false_eq_true, if_false, Run.bind_apply,
        Run.get_apply, Run.modifyGet_apply, State.withDeferral]
      have hblock : (if after = true then Hook.afterRuntime ⟨callable, hookLabel s after⟩
          else Hook.atRuntime ⟨callable, hookLabel s after⟩ : Hook DeferredBlock).block.callable
            = callable := by
        split <;> rfl
      generalize (if after = true then Hook.afterRuntime ⟨callable, hookLabel s after⟩
        else Hook.atRuntime ⟨callable, hookLabel s after⟩ : Hook DeferredBlock) = hook at hblock ⊢
      rcases site_defer_cases hook s.deferral { s with deferral := default } with
        ⟨e, h⟩ | ⟨hdepth, ⟨fn, hslot, h⟩ | ⟨hslot, unit, outer, warnings, hunits, horigin, h⟩⟩
      · rw [h]
        exact .inl ⟨_, rfl, .inr ⟨e, rfl⟩⟩
      · rw [h]
        exact .inr ⟨hook, _, .joined fn hdepth hslot, rfl, hblock⟩
      · rw [h]
        exact .inr
          ⟨hook, _, .opened hdepth hslot ⟨unit, outer, warnings, hunits, horigin, rfl⟩, rfl, hblock⟩

/-! ## Clearing and unwinding -/

/-- A state with a depth cleared, and the dispatch name bound to the nearest shallower slot. -/
def State.cleared (s : State) (depth : Nat) : State :=
  State.record
    { s with
      globals := dispatchTo s.globals ((s.deferral.pending.clear depth).2.nearest? (depth - 1))
      deferral := ⟨(s.deferral.pending.clear depth).2, s.deferral.mode⟩ }
    (.cleared depth)

/-- What clearing a depth does. -/
theorem clearDepth_cases (depth : Nat) (s : State) :
    (∃ e, clearDepth depth s = .error (s.raised (.hook e)) s) ∨
      ∃ fn, s.deferral.pending.dispatchAt? depth = some fn ∧
        clearDepth depth s = .value () (s.cleared depth) := by
  simp only [clearDepth, Run.bind_apply, Run.modifyGet_apply, State.withDeferral, Deferral.clear]
  cases hslot : s.deferral.pending.dispatchAt? depth with
  | none =>
      rw [Pending.clear_of_none hslot]
      exact .inl ⟨_, rfl⟩
  | some fn =>
      refine .inr ⟨fn, rfl, ?_⟩
      unfold State.cleared
      rw [Pending.clear_eq hslot]
      cases (s.deferral.pending.clear depth).2.nearest? (depth - 1) <;> rfl

/-- What unwinding does.  The dispatch name is left alone where there is nothing to unwind. -/
theorem unwindTo_cases (depth : Nat) (s : State) :
    ((s.deferral.pending.unwindTo depth).1 = 0 ∧ s.unwindTo depth =
        State.record
          { s with deferral := ⟨(s.deferral.pending.unwindTo depth).2, s.deferral.mode⟩ }
          (.unwound depth)) ∨
      ((s.deferral.pending.unwindTo depth).1 ≠ 0 ∧ s.unwindTo depth =
        State.record
          { s with
            globals := dispatchTo s.globals
              ((s.deferral.pending.unwindTo depth).2.nearest? depth)
            deferral := ⟨(s.deferral.pending.unwindTo depth).2, s.deferral.mode⟩ }
          (.unwound depth)) := by
  simp only [State.unwindTo, State.withDeferral, Deferral.unwindTo, State.site]
  by_cases hremoved : (s.deferral.pending.unwindTo depth).1 = 0
  · exact .inl ⟨hremoved, by rw [if_pos hremoved]⟩
  · refine .inr ⟨hremoved, ?_⟩
    rw [if_neg hremoved]
    cases (s.deferral.pending.unwindTo depth).2.nearest? depth <;> rfl

end TwoPhase.Interpreter
