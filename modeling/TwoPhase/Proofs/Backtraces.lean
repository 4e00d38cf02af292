import TwoPhase.Proofs.Course
import TwoPhase.Proofs.Interpreter.Traced

/-!
# Backtraces of errors

An error that the execution of a unit ends with carries the frames that were live when it was
raised, wherever that was: in an expression, a native sub, a hook that a dispatch call runs, or a
block that ran as another one ended (`backtraces_complete`).

There is one gap.  When the block of a unit ends, the blocks that waited for its exit run outside of
all expressions, and what cannot be entered is refused there, in the frame of the unit.  This frame
gives no backtrace, unlike those of subs and `begin` blocks, so the backtrace lacks it or there is
none at all (`unit_frame_lost`).
-/

namespace TwoPhase

open Interpreter

variable {s t : State} {bound : Nat} {unit : CompiledUnit} {calls : CallStack} {e : EvalError}

/-- Once its frame is pushed, a unit fails only if its block does, and with the same error. -/
theorem Interpreter.execute_error (hpush : s.calls.push ⟨unit.name, .unit, none⟩ = .ok calls)
    {again : Again} (hrun : execute again unit s = .error e t) :
    ∃ u, again (.block unit.body) { s with
      calls, currentUnit := some unit.id, env := s.env.pushDetached none } = .error e u := by
  simp only [execute, withFrame, pushFrame, hpush, inCodeOf, inDetachedScope, Run.bind_apply,
    Run.get_apply, Run.modify_apply, Run.ensuring] at hrun
  cases hblock : again (.block unit.body) { s with
      calls, currentUnit := some unit.id, env := s.env.pushDetached none } with
  | value flow u =>
      rw [hblock] at hrun
      cases hrun
  | error e' u =>
      rw [hblock] at hrun
      cases hrun
      exact ⟨u, rfl⟩
  | cutOff =>
      rw [hblock] at hrun
      cases hrun

/-- Whatever a unit that a session executes fails with once its frame is pushed, the error was
raised on top of that frame, and its backtrace has just the frames that were live then; or a block
put off could not be entered when the block of a unit ended, and the backtrace lacks the frame of
this unit.  If it is the unit that was executed, the error has neither a backtrace nor a span. -/
theorem backtraces_complete (hpush : s.calls.push ⟨unit.name, .unit, none⟩ = .ok calls)
    (hwork : AtWork bound (.block unit.body) { s with
      calls, currentUnit := some unit.id, env := s.env.pushDetached none })
    (hrun : execute (run bound) unit s = .error e t) :
    calls.frames <:+ e.frames ∧
    (e.backtrace = some ⟨e.frames⟩ ∨
      Barred e.kind ∧ ∃ frame rest, e.frames = frame :: rest ∧ frame.kind = .unit ∧
        (e.backtrace = some ⟨rest⟩ ∨
          e.backtrace = none ∧ e.span = none ∧ e.frames = calls.frames)) := by
  obtain ⟨u, hblock⟩ := execute_error hpush hrun
  obtain ⟨hs, hbody⟩ := hwork.sound
  obtain ⟨-, -, -, hdefined⟩ := (run_sound bound (.block unit.body) _ hs hbody).error hblock
  -- lexical names that code at work refers to are defined
  have hbarred : Exposed e.kind → Barred e.kind := by
    rintro (hbarred | ⟨name, hname⟩)
    · exact hbarred
    · exact absurd hname (hdefined name)
  have hframes : calls.frames = ⟨unit.name, .unit, none⟩ :: s.calls.frames :=
    congrArg CallStack.frames (CallStack.eq_pushed hpush)
  have hne : calls.frames ≠ [] := hframes ▸ List.cons_ne_nil _ _
  obtain ⟨-, hfails⟩ := ((run_traced bound).nested (.block unit.body) hne).error rfl hblock
  rcases hfails with htraced | hbare
  · cases htraced with
    | complete houter hbacktrace => exact ⟨houter, .inl hbacktrace⟩
    | @short inner rest hlive hunit hexposed houter hbacktrace =>
        refine ⟨?_, .inr ⟨hbarred hexposed, inner, rest, hlive, hunit, .inl hbacktrace⟩⟩
        exact hlive ▸ houter.trans (List.suffix_cons inner rest)
  · have hkind := hbarred hbare.exposed
    exact ⟨hbare.frames ▸ List.suffix_rfl, .inr ⟨hkind, _, _, hbare.frames.trans hframes, rfl,
      .inr ⟨hbare.backtrace, hbare.span hkind, hbare.frames⟩⟩⟩

/-- A unit with a block put off that fails when the unit runs. -/
def failingHook : String := "begin \x7b at_runtime(fn() \x7b die(\"no\"); \x7d); \x7d"

theorem backtraces_complete_in_hook : ∃ unit s calls e t,
    Session.compile 22 failingHook none none (Session.start .default) = .value unit s ∧
    s.calls.push ⟨unit.name, .unit, none⟩ = .ok calls ∧
    AtWork 22 (.block unit.body) { s with
      calls, currentUnit := some unit.id, env := s.env.pushDetached none } ∧
    execute (run 22) unit s = .error e t ∧
    e.frames.map Frame.name = ["main::(at_runtime)", dispatchName, "main"] ∧
    calls.frames <:+ e.frames ∧ e.backtrace = some ⟨e.frames⟩ := by
  have htest : (Session.compile 22 failingHook none none (Session.start .default)).valueWith
      (fun unit s => (s.calls.push ⟨unit.name, .unit, none⟩).isOk &&
        (execute (run 22) unit s).errorWith fun e _ =>
          e.frames.map Frame.name = ["main::(at_runtime)", dispatchName, "main"] ∧
            e.kind matches .died _) = true := by
    decide +kernel
  obtain ⟨unit, s, hcompile, htest⟩ := Run.Outcome.exists_value htest
  obtain ⟨hpush, htest⟩ := Bool.and_eq_true_iff.1 htest
  obtain ⟨e, t, hrun, htest⟩ := Run.Outcome.exists_error htest
  obtain ⟨hnames, hdied⟩ := of_decide_eq_true htest
  cases hcalls : s.calls.push ⟨unit.name, .unit, none⟩ with
  | error fault =>
      rw [hcalls] at hpush
      cases hpush
  | ok calls =>
  have hcourse : Course s [] [unit] := .compiled (.start .default) hcompile
  have hwork := AtWork.unit hcourse List.mem_cons_self hcalls 22
  obtain ⟨houter, hbacktrace | ⟨hbarred, -⟩⟩ := backtraces_complete hcalls hwork hrun
  · exact ⟨unit, s, calls, e, t, hcompile, hcalls, hwork, hrun, hnames, houter, hbacktrace⟩
  · split at hdied
    · rename_i hkind
      rw [hkind] at hbarred
      cases hbarred
    · cases hdied

/-- A unit with a block put off that takes an argument, to run as the unit ends. -/
def barredHook : String := "begin \x7b after_runtime(fn(x) \x7b \x7d); \x7d"

/-- The error was raised in the frame of the unit, and has no backtrace. -/
theorem unit_frame_lost : ∃ unit s e t,
    Session.compile 22 barredHook none none (Session.start .default) = .value unit s ∧
    execute (run 22) unit s = .error e t ∧ e.frames = [⟨"main", .unit, none⟩] ∧
    e.backtrace = none := by
  have htest : (Session.compile 22 barredHook none none (Session.start .default)).valueWith
      (fun unit s => (execute (run 22) unit s).errorWith fun e _ =>
        e.frames = [⟨"main", .unit, none⟩] ∧ e.backtrace = none) = true := by
    decide +kernel
  obtain ⟨unit, s, hcompile, htest⟩ := Run.Outcome.exists_value htest
  obtain ⟨e, t, hrun, htest⟩ := Run.Outcome.exists_error htest
  exact ⟨unit, s, e, t, hcompile, hrun, of_decide_eq_true htest⟩

end TwoPhase
