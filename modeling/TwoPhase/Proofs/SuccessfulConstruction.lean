import TwoPhase.Proofs.Interpreter.Guarded

/-!
# Successful constructions

Nothing unwinds the slots of a construction that succeeds.  They are gone all the same, since the
parser has come to all their markers: a marker that is ahead stays ahead until it is parsed and run,
and at the end of the text nothing is ahead.

Text that a block splices in is spliced in as it is, so it can swallow a marker, and a program can
give the name that markers call another meaning.  Where it does neither, no slot stays behind.
-/

namespace TwoPhase

open Interpreter

variable {bound : Nat} {name : String} {origin : UnitOrigin} {path : Option String}
  {source : String} {unit : CompiledUnit} {s t : State}

/-- A construction that succeeds leaves no slot deeper than where it started, every block that was
put off deeper has seen its depth cleared, or unwound with a construction that was given up, and
later blocks join none of its hook lists. -/
theorem successful_construction_leaves_nothing (hs : Reachable s)
    (hnone : ∀ k, s.depth < k → s.deferral.pending.dispatchAt? k = none)
    (hvalue : construct bound (run bound) name origin path source s = .value unit t)
    (huntouched : t.globals.Untouched clearName)
    (hclosed : ∀ text ∈ t.core.splices s.history.length, Closed text) :
    (∀ k, s.depth < k → t.deferral.pending.dispatchAt? k = none) ∧
    (∀ k hook later earlier, s.depth < k →
      t.core.recent s.history.length = later ++ .deferred k hook :: earlier →
      .cleared k ∈ later ∨ ∃ d < k, .unwound d ∈ later) ∧
    (∀ (u : State) floor least k fn, Core.Steps floor least t.core u.core → s.depth < k →
      u.deferral.pending.dispatchAt? k = some fn → t.deferral.pending.lists.size ≤ fn.list) := by
  have hdeeper : ∀ k, s.depth < k → t.deferral.pending.dispatchAt? k = none :=
    (construct_deeper name origin path source hs (Nat.le_refl _)
      (fun depth _ work => Marked.run bound _ depth work) fun _ => hnone).value rfl hvalue
        ⟨huntouched, hclosed⟩
  have haround : Around s t :=
    (run_construct bound s name origin path source).value rfl hvalue
  refine ⟨hdeeper, fun k hook later earlier hk hrecent => ?_,
    fun u floor least k fn hsteps hk hslot => ?_⟩
  · rcases haround.core.deferred_cases hrecent with hpending | hgone
    · exact absurd (hdeeper k hk) hpending
    · exact hgone
  · rcases hsteps.slot_cases hslot with hbefore | ⟨_, hnew⟩
    · have hat : t.core.pending.dispatchAt? k = none := hdeeper k hk
      rw [hat] at hbefore
      cases hbefore
    · exact hnew

/-- Both conditions are needed: a comment that is spliced in swallows the marker, and a sub that
takes the name of the clearing sub keeps the marker from clearing anything. -/
theorem stale_slots_possible :
    Reachable (Session.start .default) ∧ (Session.start .default).depth = 0 ∧
    (∀ k, (Session.start .default).deferral.pending.dispatchAt? k = none) ∧
    (∃ unit t, construct 30 (run 30) "main" .main none
      "begin \x7b at_runtime(fn() \x7b \x7d); lex_stuff(\"//\"); \x7d" (Session.start .default)
        = .value unit t ∧ t.globals.Untouched clearName ∧ t.pendingDepths = [1]) ∧
    ∃ unit t, construct 30 (run 30) "main" .main none
      "sub at_runtime::clear(d) \x7b \x7d begin \x7b at_runtime(fn() \x7b \x7d); \x7d"
        (Session.start .default) = .value unit t ∧ t.pendingDepths = [1] := by
  refine ⟨.start .default, rfl, fun _ => rfl, ?_, ?_⟩
  · have htest : (construct 30 (run 30) "main" .main none
        "begin \x7b at_runtime(fn() \x7b \x7d); lex_stuff(\"//\"); \x7d"
        (Session.start .default)).valueWith
          (fun _ t => t.globals.Untouched clearName ∧ t.pendingDepths = [1]) = true := by
      decide +kernel
    obtain ⟨unit, t, hvalue, hpending⟩ := Run.Outcome.exists_value htest
    exact ⟨unit, t, hvalue, of_decide_eq_true hpending⟩
  · have htest : (construct 30 (run 30) "main" .main none
        "sub at_runtime::clear(d) \x7b \x7d begin \x7b at_runtime(fn() \x7b \x7d); \x7d"
        (Session.start .default)).valueWith (fun _ t => t.pendingDepths = [1]) = true := by
      decide +kernel
    obtain ⟨unit, t, hvalue, hpending⟩ := Run.Outcome.exists_value htest
    exact ⟨unit, t, hvalue, of_decide_eq_true hpending⟩

theorem closed_call : Closed "f();" := by
  have hreads : ∀ rest, Scan.Reads ("f();".toList ++ rest)
      [.ident "f", .parenOpen, .parenClose, .semicolon] rest := by
    intro rest
    refine .token (c := 'f') rfl rfl rfl ?_
    refine .token (c := '(') rfl rfl rfl ?_
    refine .token (c := ')') rfl rfl rfl ?_
    exact .semicolon (.done rest)
  exact .of_reads hreads rfl

/-- A call spliced in behind a deferral is read before the marker, and does not swallow it. -/
theorem successful_construction_after_splice : ∃ unit t,
    construct 30 (run 30) "main" .main none
      "sub f() \x7b \x7d begin \x7b at_runtime(f); lex_stuff(\"f();\"); \x7d"
      (Session.start .default) = .value unit t ∧
    t.globals.Untouched clearName ∧ t.core.splices 0 = ["f();"] ∧
    ∀ k, 0 < k → t.deferral.pending.dispatchAt? k = none := by
  have htest : (construct 30 (run 30) "main" .main none
      "sub f() \x7b \x7d begin \x7b at_runtime(f); lex_stuff(\"f();\"); \x7d"
      (Session.start .default)).valueWith (fun _ t => t.globals.Untouched clearName ∧
        t.core.splices 0 = ["f();"]) = true := by
    decide +kernel
  obtain ⟨unit, t, hvalue, hrun⟩ := Run.Outcome.exists_value htest
  obtain ⟨huntouched, hsplices⟩ := of_decide_eq_true hrun
  have hclosed : ∀ text ∈ t.core.splices (Session.start .default).history.length, Closed text := by
    intro text hmem
    have hmem : text ∈ t.core.splices 0 := hmem
    rw [hsplices] at hmem
    rw [List.mem_singleton.1 hmem]
    exact closed_call
  have hnothing := successful_construction_leaves_nothing (.start .default) (fun _ _ => rfl) hvalue
    huntouched hclosed
  exact ⟨unit, t, hvalue, huntouched, hsplices, hnothing.1⟩

end TwoPhase
