import TwoPhase.Proofs.Request

/-!
# Line mode and precise mode

Line mode splices at the end of a line, precise mode at the cursor.  Where line mode finds no code
on the rest of the line, both put the fragment in front of the same words, so the construction goes
on alike.  A construction in line mode that gives no warning is therefore one in precise mode too,
up to spans (`line_mode_agrees`).
-/

namespace TwoPhase

open Interpreter

variable {s t : State}

/-- The comparison in which spans do not count. -/
def Comparison.spanless (warned spliced : Nat) : Comparison :=
  ⟨False, True, False, warned, spliced, 0⟩

namespace Interpreter

/-- The same state with another injection mode. -/
def State.inMode (s : State) (mode : InjectionMode) : State :=
  { s with deferral := { s.deferral with mode } }

/-- The comparison of a construction that starts in a state in line mode. -/
abbrev State.spanless (s : State) : Comparison := .spanless s.lineWarnings s.splices

/-- The same cells hold dispatch functions, and their hooks are the same up to spans, in the same
order. -/
structure SameDispatch (K : Comparison) (s t : State) : Prop where
  cells : ∀ cell fn, s.globals.value? cell = some (.dispatch fn) ↔
    t.globals.value? cell = some (.dispatch fn)
  hooks : ∀ fn, (s.deferral.pending.hooks fn).toList.Forall₂ (Hook.Like K)
    (t.deferral.pending.hooks fn).toList

theorem matched_inMode (hmode : s.deferral.mode = .line) :
    Matched s.spanless s (s.inMode .precise) where
  like := { State.Like.refl s with pending := .refl _, mode := fun hexact => hexact.elim }
  modes _ := ⟨hmode, rfl⟩
  unlimited hframes := absurd trivial hframes
  warned := Nat.le_refl _
  spliced := Nat.le_refl _
  asked := Nat.zero_le _

/-- Only a dispatch function is like a dispatch function. -/
theorem dispatch_like_iff {K : Comparison} {v w : Option Value}
    (h : Option.Rel (Value.Like K) v w) (fn : DispatchFn) :
    v = some (.dispatch fn) ↔ w = some (.dispatch fn) := by
  cases h with
  | none => exact Iff.rfl
  | some h =>
      cases h with
      | same => exact Iff.rfl
      | list => exact ⟨(nomatch ·), (nomatch ·)⟩
      | sub => exact ⟨(nomatch ·), (nomatch ·)⟩

theorem State.Like.sameDispatch {K : Comparison} (h : s.Like K t) : SameDispatch K s t where
  cells cell fn := dispatch_like_iff (h.globals.value? cell) fn
  hooks fn := h.pending.hooks_toList fn

end Interpreter

/-- A construction in line mode that succeeds, gives no warning of line mode and calls no code that
splices text in by hand succeeds in precise mode too.  It gives no warning there either, prints the
same, and ends with the same tree up to spans, whose cells hold dispatch functions with the same
hooks in the same order. -/
theorem line_mode_agrees {bound : Nat} {source : String} {name path : Option String}
    {unit : CompiledUnit} (hmode : s.deferral.mode = .line)
    (hrun : Session.compile bound source name path s = .value unit t)
    (hunwarned : t.lineWarnings = s.lineWarnings) (hunspliced : t.splices = s.splices) :
    ∃ unit' t', Session.compile bound source name path (s.inMode .precise) = .value unit' t' ∧
      t'.warnings = s.warnings ∧ t'.output = t.output ∧
      unit.body.Like s.spanless unit'.body ∧ SameDispatch s.spanless t t' := by
  have hsim := Alike.compileWith (run_alike s.spanless bound 0) bound 0 source name path
  rcases hsim.value (matched_inMode hmode) (fun haligned => haligned.elim) hrun with
    (⟨_, hwarned | hspliced⟩ | ⟨hframes, _⟩) | ⟨unit', t', hrun', hunit, hmatched⟩
  · exact absurd hwarned (by rw [hunwarned]; exact Nat.lt_irrefl _)
  · exact absurd hspliced (by rw [hunspliced]; exact Nat.lt_irrefl _)
  · exact absurd trivial hframes
  · have hwarnings : t.warnings = s.warnings := (hsim.moves_value hrun).unwarned hunwarned
    exact ⟨unit', t', hrun', hmatched.like.warnings ▸ hwarnings, hmatched.like.output.symm,
      hunit.body, hmatched.like.sameDispatch⟩

/-- A session in line mode with a module that puts a block off when it is run. -/
def lineSession : State :=
  Session.addModule "m" "at_runtime(fn() { print(1); });"
    (Session.start { Settings.default with injection := .line })

/-- A block that puts one block off itself and another by way of the module. -/
def lineSource : String := "begin \x7b at_runtime(print); require(\"m\"); \x7d // two\nprint(2);"

/-- Only a comment is left on the line of the block, so both modes give the same tree. -/
theorem line_mode_agrees_on_module : ∃ unit t unit' t',
    Session.compile 30 lineSource none none lineSession = .value unit t ∧
    (t.deferral.pending.hooks ⟨0, 1⟩).size = 2 ∧
    Session.compile 30 lineSource none none (lineSession.inMode .precise) = .value unit' t' ∧
    t'.warnings = #[] ∧ t'.output = t.output ∧
    unit.body.Like lineSession.spanless unit'.body ∧ SameDispatch lineSession.spanless t t' := by
  have htest : (Session.compile 30 lineSource none none lineSession).valueWith (fun _ t =>
      t.lineWarnings = lineSession.lineWarnings ∧ t.splices = lineSession.splices ∧
        (t.deferral.pending.hooks ⟨0, 1⟩).size = 2) = true := by
    decide +kernel
  obtain ⟨unit, t, hrun, htest⟩ := Run.Outcome.exists_value htest
  obtain ⟨hunwarned, hunspliced, hsize⟩ := of_decide_eq_true htest
  obtain ⟨unit', t', hagrees⟩ := line_mode_agrees rfl hrun hunwarned hunspliced
  exact ⟨unit, t, unit', t', hrun, hsize, hagrees⟩

end TwoPhase
