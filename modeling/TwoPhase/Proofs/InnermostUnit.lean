import TwoPhase.Proofs.Interpreter.Confined
import TwoPhase.Proofs.Restoration

/-!
# Splices stay in the innermost unit

Text is spliced into the innermost unit under construction, behind its cursor.  The innermost unit
changes as `begin` blocks construct further units and these end, but no splice ever reaches a unit
around it, nor text that was consumed already.  Evaluated strings take no text at all, so the table
of units has every one of them as it was given.
-/

namespace TwoPhase

open Interpreter
open Session (Request)
open Run (Triple)

/-! ## One splice -/

namespace Buffer

/-- `c` is `b` with a piece of text added somewhere behind the cursor, which holds `text`. -/
structure AddedBehind (text : String) (b c : Buffer) : Prop where
  before : c.before = b.before
  cursor : c.cursor = b.cursor
  after : ∃ front piece back, b.after = front ++ back ∧ c.after = front ++ (piece ++ back) ∧
    text.toList <:+: piece

theorem infix_padded (left : Option Char) (text : List Char) (right : Option Char) :
    text <:+: padded left text right := by
  unfold padded
  exact ⟨_, _, rfl⟩

/-- A splice adds text behind the cursor, in either mode. -/
theorem insert_addedBehind (b : Buffer) (mode : InjectionMode) (text : String) :
    AddedBehind text b (b.insert mode text) := by
  obtain ⟨hbefore, hcursor, -⟩ := b.insert_before mode text
  refine ⟨hbefore, hcursor, ?_⟩
  cases mode with
  | precise => exact ⟨[], _, b.after, rfl, rfl, infix_padded _ _ _⟩
  | line =>
      obtain ⟨line, following, -, hsplit, hafter⟩ := b.insert_line_after text
      have hpiece := infix_padded (some '\n') text.toList following.head?
      rcases hsplit with ⟨hline, rfl⟩ | hline
      · -- there was no next line, so the line break is new too
        refine ⟨line, '\n' :: padded (some '\n') text.toList none, [], by simp [hline], ?_, ?_⟩
        · simpa using hafter
        · exact hpiece.trans (List.suffix_cons _ _).isInfix
      · refine ⟨line ++ ['\n'], padded (some '\n') text.toList following.head?, following,
          by simp [hline], ?_, hpiece⟩
        simpa using hafter

end Buffer

/-! ## Sessions -/

/-- The states of a session between its requests. -/
inductive Between : State → Prop where
  | start (settings : Settings) : Between (Session.start settings)
  | request {s t : State} (h : Between s) (bound : Nat) (request : Request)
      (hend : (request.run bound s).state? = some t) : Between t
  | addModule {s : State} (h : Between s) (name source : String) :
      Between (Session.addModule name source s)
  | takeWarnings {s : State} (h : Between s) : Between (Session.takeWarnings s).2
  | takeOutput {s : State} (h : Between s) : Between (Session.takeOutput s).2

/-- What holds however a run ends. -/
theorem Run.Triple.state? {σ ε α : Type} {P Q : σ → Prop} {body : Run σ ε α}
    (h : Triple P body (fun _ => Q) (fun _ => Q)) {s t : σ} (hs : P s)
    (hend : (body s).state? = some t) : Q t := by
  have hbody := h s hs
  cases hrun : body s with
  | value a u =>
      rw [hrun] at hbody hend
      exact Option.some.inj hend ▸ hbody
  | error e u =>
      rw [hrun] at hbody hend
      exact Option.some.inj hend ▸ hbody
  | cutOff =>
      rw [hrun] at hend
      cases hend

theorem Between.verbatim {s : State} (h : Between s) : s.Verbatim := by
  induction h with
  | start settings => exact fun record hrecord => absurd hrecord (by
      simp [Session.start, State.initial, UnitTable.empty])
  | @request s t h bound request hend ih =>
      -- whether the request succeeds or fails, the state it ends with is confined to the one before
      have hkeeps := request.keeps (run_confined_respects bound s)
      exact (hkeeps.state? (.refl s) hend).verbatim ih
  | addModule h name source ih => exact ih
  | takeWarnings h ih => exact ih
  | takeOutput h ih => exact ih

/-! ## The main statement -/

/-- The same units, but for text behind the cursor of the innermost one, which is the same too if it
is an evaluated string. -/
def InnermostOnly : List Construction → List Construction → Prop
  | [], us => us = []
  | unit :: outer, us => ∃ buffer, us = { unit with buffer } :: outer ∧
      buffer.before = unit.buffer.before ∧ buffer.cursor = unit.buffer.cursor ∧
      (unit.origin = .stringEval → buffer = unit.buffer)

theorem innermostOnly_of_shielded {us vs : List Construction} (h : Shielded us vs) :
    InnermostOnly us vs := by
  cases us with
  | nil => exact h
  | cons unit outer =>
      obtain ⟨buffer, rfl, hspliced, hsealed⟩ := h
      obtain ⟨hbefore, hcursor, -⟩ := hspliced.before
      exact ⟨buffer, rfl, hbefore, hcursor, hsealed⟩

/-- A refused splice changes nothing; one that succeeds adds text behind the cursor of the innermost
unit, which is no evaluated string, and touches no other unit.  So whatever code or a request does,
the units around the innermost one stay as they are, the innermost one keeps the text in front of
its cursor, and all of its text if it is an evaluated string.  However the evaluation of a string
ends, the string is recorded as it was given, and in a session every evaluated string still is. -/
theorem splices_stay_innermost :
    (∀ mode text s e, (State.inject mode text s).1 = .error e → (State.inject mode text s).2 = s) ∧
    (∀ mode text s, (State.inject mode text s).1 = .ok () →
      ∃ unit outer buffer, s.units = unit :: outer ∧ unit.origin ≠ .stringEval ∧
        (State.inject mode text s).2.units = { unit with buffer } :: outer ∧
        Buffer.AddedBehind text unit.buffer buffer) ∧
    (∀ bound (α : Type) (work : Work α) s t, (run bound work s).state? = some t →
      InnermostOnly s.units t.units) ∧
    (∀ bound (request : Request) s t, (request.run bound s).state? = some t →
      InnermostOnly s.units t.units) ∧
    (∀ bound text s t, (evalString bound (run bound) text s).state? = some t →
      t.records.get? s.records.nextId = some ⟨evalUnitName, none, .stringEval, text, text⟩) ∧
    ∀ s, Between s → ∀ record ∈ s.records.units.toList,
      record.origin = .stringEval → record.text = record.given := by
  refine ⟨fun mode text s e herror => ?_, fun mode text s hok => ?_,
    fun bound α work s t hend => ?_, fun bound request s t hend => ?_,
    fun bound text s t hend => ?_, fun s hs => hs.verbatim⟩
  · rcases inject_cases mode text s with ⟨e', h⟩ | ⟨unit, outer, warnings, -, -, h⟩
    · rw [h]
    · rw [h] at herror
      cases herror
  · rcases inject_cases mode text s with ⟨e', h⟩ | ⟨unit, outer, warnings, hunits, horigin, h⟩
    · rw [h] at hok
      cases hok
    · refine ⟨unit, outer, unit.buffer.insert mode text, hunits, horigin, ?_,
        unit.buffer.insert_addedBehind mode text⟩
      rw [h]
  · exact innermostOnly_of_shielded ((run_confined bound s work).state? (.refl s) hend).units
  · have hkeeps := request.keeps (run_confined_respects bound s)
    exact innermostOnly_of_shielded (hkeeps.state? (.refl s) hend).units
  · have hrecorded : Recorded s ⟨evalUnitName, none, .stringEval, text, text⟩ t :=
      (evalString_recorded bound text s).state? rfl hend
    obtain ⟨recorded, hget, hgiven⟩ := hrecorded
    rw [hget, hgiven rfl]

end TwoPhase
