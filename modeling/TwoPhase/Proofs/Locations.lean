import TwoPhase.Proofs.Course

/-!
# Locations of errors

An error that a session answers with was raised somewhere in the text of a unit, and so was every
error inside it.  When the session has answered, that text is recorded for good, and the spans of
all these errors fit it (`locations_real`).  So their diagnostics can be rendered with it.
-/

namespace TwoPhase

open Interpreter
open Session (Request RunError Answer)

variable {s t : State} {vs : List Value} {us : List CompiledUnit}

/-! ## Parts of errors -/

namespace Session.RunError

/-- An error that is inside another, or is the other. -/
inductive Part : RunError → RunError → Prop where
  | self (e : RunError) : Part e e
  /-- A unit that could not be constructed at run time. -/
  | construction {e : EvalError} {error : CompileError} {inner : RunError}
      (hkind : e.kind = .construction error) (h : Part (.compile error) inner) :
      Part (.runtime e) inner
  /-- What made a `begin` block fail. -/
  | cause {span : Span} {cause : EvalError} {unit : Option UnitId} {inner : RunError}
      (h : Part (.runtime cause) inner) : Part (.compile (.failedBegin span cause unit)) inner

/-- The spans of an error itself. -/
def spans : RunError → List Span
  | .runtime e => e.span.toList
  | .compile (.parse error _) => error.span :: error.fault.openedAt?.toList
  | .compile (.failedBegin span _ _) => [span]

theorem Sound.part {e inner : RunError} (h : e.Sound s) (hpart : e.Part inner) :
    inner.Sound s := by
  induction hpart with
  | self => exact h
  | construction hkind _ ih =>
      cases h with
      | mk _ hcause _ => exact ih (hcause _ hkind)
  | cause _ ih =>
      cases h with
      | failedBegin _ hcause => exact ih hcause

/-- The spans of a sound error are places in its unit. -/
theorem Sound.placed {e : RunError} (h : e.Sound s) {span : Span} (hspan : span ∈ e.spans) :
    ∃ id, e.unit? = some id ∧ s.Places id span := by
  cases e with
  | runtime e =>
      cases h with
      | mk hplace _ _ =>
          have hspan : e.span = some span := Option.mem_toList.1 hspan
          rcases hplace with ⟨hnone, _⟩ | ⟨own, id, hown, hid, hplaces⟩
          · cases hnone.symm.trans hspan
          · cases hown.symm.trans hspan
            exact ⟨id, hid, hplaces⟩
  | compile error =>
      cases h with
      | @parse error id hplaces hopened =>
          rcases List.mem_cons.1 hspan with rfl | hspan
          · exact ⟨id, rfl, hplaces⟩
          · exact ⟨id, rfl, hopened span (Option.mem_toList.1 hspan)⟩
      | @failedBegin own cause id hplaces _ =>
          cases List.mem_singleton.1 hspan
          exact ⟨id, rfl, hplaces⟩

end Session.RunError

/-! ## Labels -/

namespace Diagnostic

/-- The spans of the labels of a diagnostic. -/
def spans (d : Diagnostic) : List Span := d.labels.map (·.span)

@[simp] theorem spans_error (code : Code) (message : String) : (error code message).spans = [] :=
  rfl

@[simp] theorem spans_withLabel (d : Diagnostic) (span : Span) (message : String) :
    (d.withLabel span message).spans = d.spans ++ [span] := by
  simp [spans, withLabel]

@[simp] theorem spans_withSecondaryLabel (d : Diagnostic) (span : Span) (message : String) :
    (d.withSecondaryLabel span message).spans = d.spans ++ [span] := by
  simp [spans, withSecondaryLabel]

@[simp] theorem spans_withNote (d : Diagnostic) (note : String) :
    (d.withNote note).spans = d.spans := rfl

@[simp] theorem spans_withBacktrace (d : Diagnostic) (backtrace : Option Backtrace) :
    (d.withBacktrace backtrace).spans = d.spans := by
  unfold withBacktrace
  split
  · split <;> rfl
  · rfl

end Diagnostic

theorem EvalError.spans_diagnostic (e : EvalError) :
    (EvalError.diagnostic e).spans = e.span.toList := by
  unfold EvalError.diagnostic
  cases e.span <;> simp

theorem ParseError.spans_diagnostic (e : ParseError) :
    e.diagnostic.spans = e.span :: e.fault.openedAt?.toList := by
  unfold ParseError.diagnostic
  cases e.fault.openedAt? <;> simp

/-- The cause of a failed `begin` block is shown if it is in the same unit. -/
theorem CompileError.spans_failedBegin (span : Span) (cause : EvalError) (unit : Option UnitId) :
    (CompileError.failedBegin span cause unit).diagnostic.spans =
      span :: if cause.unit.isNone || cause.unit == unit then cause.span.toList else [] := by
  obtain ⟨kind, inner, causeUnit, backtrace, frames⟩ := cause
  unfold CompileError.diagnostic
  cases inner with
  | none => simp
  | some inner =>
      dsimp only
      split <;> simp

/-- The labels of the diagnostic of a sound error are places in its unit. -/
theorem Session.RunError.Sound.labelled {e : RunError} (h : e.Sound s) {span : Span}
    (hspan : span ∈ e.diagnostic.spans) : ∃ id, e.unit? = some id ∧ s.Places id span := by
  cases e with
  | runtime e =>
      have hspan : span ∈ (EvalError.diagnostic e).spans := hspan
      rw [EvalError.spans_diagnostic] at hspan
      exact h.placed hspan
  | compile error =>
      cases h with
      | @parse error id hplaces hopened =>
          have hspan : span ∈ error.diagnostic.spans := hspan
          rw [error.spans_diagnostic] at hspan
          exact RunError.Sound.placed (e := .compile _) (.parse hplaces hopened) hspan
      | @failedBegin own cause id hplaces hcause =>
          have hspan : span ∈ (CompileError.failedBegin own cause (some id)).diagnostic.spans :=
            hspan
          rw [CompileError.spans_failedBegin] at hspan
          rcases List.mem_cons.1 hspan with rfl | hinner
          · exact ⟨id, rfl, hplaces⟩
          split at hinner
          · -- the cause is in this unit, as it has a span and so a unit
            rename_i hsame
            obtain ⟨id', hid', hplaces'⟩ :=
              RunError.Sound.placed (e := .runtime cause) hcause hinner
            have hid' : cause.unit = some id' := hid'
            obtain rfl : id' = id := by simpa [hid'] using hsame
            exact ⟨id', rfl, hplaces'⟩
          · exact absurd hinner List.not_mem_nil

/-! ## Recorded texts -/

/-- Between two requests, what is settled of a unit is its recorded text. -/
theorem Interpreter.State.Places.recorded {id : UnitId} {span : Span} (h : s.Places id span)
    (hidle : s.units = []) :
    ∃ record, s.records.get? id = some record ∧ span.Fits record.text.toList := by
  obtain ⟨text, htext, hspan⟩ := h
  rw [State.settled?, hidle] at htext
  obtain ⟨record, hrecord, rfl⟩ := Option.map_eq_some_iff.1 htext
  exact ⟨record, hrecord, hspan⟩

/-- Whatever a request fails with, the spans of the error and of all errors inside it point into the
recorded texts of their units, and the diagnostics of all of them can be rendered with these. -/
theorem locations_real (h : Course s vs us) {request : Request} (huses : request.Uses vs us)
    {bound : Nat} {e : RunError} (hrun : request.run bound s = .error e t) :
    ∀ inner, e.Part inner →
      (∀ span ∈ inner.spans, ∃ id record, inner.unit? = some id ∧
        t.records.get? id = some record ∧ span.Fits record.text.toList ∧
        span.stop ≤ Text.byteLength record.text.toList) ∧
      ∀ colors, (inner.diagnostic.render? colors (Session.sourceText? t inner.unit?)).isSome := by
  intro inner hpart
  have hidle : t.units = [] := (Course.failed h huses bound hrun).sound.idle
  rw [Request.run_eq] at hrun
  have hsound := h.sound
  obtain ⟨-, he⟩ := (SoundParts.request (run_sound bound) bound hsound.state
    (huses.sound hsound.values hsound.units)).error hrun
  have hinner : inner.Sound t := he.part hpart
  refine ⟨fun span hspan => ?_, fun colors => ?_⟩
  · obtain ⟨id, hid, hplaces⟩ := hinner.placed hspan
    obtain ⟨record, hrecord, hfits⟩ := hplaces.recorded hidle
    exact ⟨id, record, hid, hrecord, hfits, hfits.stop.le_byteLength⟩
  · refine Diagnostic.render?_isSome colors _ _ fun text htext label hlabel => ?_
    obtain ⟨id, hid, hplaces⟩ := hinner.labelled (List.mem_map_of_mem hlabel)
    obtain ⟨record, hrecord, hfits⟩ := hplaces.recorded hidle
    rw [Session.sourceText?, hid, Option.bind_some, hrecord] at htext
    cases htext
    exact hfits

/-- A unit with a `begin` block that evaluates a text with an open brace. -/
def openInBegin : String := "begin \x7b print(\"é\"); eval(\"\x7b 1\"); \x7d"

/-- Where a delimiter was left open in a text that a `begin` block evaluated. -/
def openedInBegin? : RunError → Option Span
  | .compile (.failedBegin _ ⟨.construction (.parse error _), _, _, _, _⟩ _) =>
    error.fault.openedAt?
  | _ => none

/-- The brace is found in the text that was evaluated. -/
theorem locations_real_in_begin : ∃ span cause unit error evaluated t opened,
    (Request.runSource openInBegin).run 30 (Session.start .default) =
      .error (.compile (.failedBegin span cause unit)) t ∧
    cause.kind = .construction (.parse error evaluated) ∧ error.fault.openedAt? = some opened ∧
    ∃ id record, evaluated = some id ∧ t.records.get? id = some record ∧
      opened.Fits record.text.toList ∧ opened.stop ≤ Text.byteLength record.text.toList := by
  have htest : (Session.runSource 30 openInBegin (Session.start .default)).errorWith
      (fun e _ => (openedInBegin? e).isSome) = true := by
    decide +kernel
  obtain ⟨e, t, hrun, htest⟩ := Run.Outcome.exists_error htest
  obtain ⟨opened, hopened⟩ := Option.isSome_iff_exists.1 htest
  unfold openedInBegin? at hopened
  split at hopened
  on_goal 2 => cases hopened
  rename_i span error evaluated causeSpan causeUnit backtrace frames unit
  have hrequest : (Request.runSource openInBegin).run 30 (Session.start .default) =
      .error (.compile (.failedBegin span
        ⟨.construction (.parse error evaluated), causeSpan, causeUnit, backtrace, frames⟩ unit))
        t := by
    simp only [Request.run, map_eq_pure_bind, Run.bind_apply, hrun]
  have huses : (Request.runSource openInBegin).Uses [] [] := trivial
  have hreal := locations_real (.start .default) huses hrequest
    (.compile (.parse error evaluated)) (.cause (.construction rfl (.self _)))
  exact ⟨span, _, unit, error, evaluated, t, opened, hrequest, rfl, hopened,
    hreal.1 opened (by simp [RunError.spans, hopened])⟩

end TwoPhase
