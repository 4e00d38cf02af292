import TwoPhase.Proofs.Deferral.Operations
import TwoPhase.Proofs.Marker

/-!
# Deferral is atomic

Putting a hook off makes its checks and splices its text in before the pending hooks change, so a
refusal leaves no trace.  Only the hook that opens a slot splices a dispatch call in; those that
join the slot rely on it.  So as long as a slot lives, one dispatch call of its depth is spliced in,
and it is the first thing that happens.
-/

namespace TwoPhase

variable {B σ : Type}

namespace Scene

variable (site : Site σ) (place : σ) {scene : Scene B}

/-- A refused operation leaves the scene as it is and asks nothing of the site. -/
theorem perform_failed (operation : Operation B)
    (hfailed : (scene.perform site place operation).1.outcome.failed) :
    (scene.perform site place operation).2 = scene ∧
      (scene.perform site place operation).1.effects = [] := by
  -- only a refusal reports a failure, and refusals come with the scene unchanged
  cases operation with
  | defer hook =>
      rcases scene.perform_defer site place hook with
        ⟨e, hrun⟩ | ⟨-, ⟨joined, -, hrun⟩ | ⟨-, hrun⟩⟩
      · rw [hrun]
        exact ⟨rfl, rfl⟩
      · simp [hrun, Outcome.failed] at hfailed
      · simp [hrun, Outcome.failed] at hfailed
  | splice text =>
      rcases scene.perform_splice site place text with ⟨e, hrun⟩ | hrun <;>
      · rw [hrun] at hfailed ⊢
        simp_all [Outcome.failed]
  | clear depth =>
      rcases scene.perform_clear site place depth with ⟨-, hrun⟩ | ⟨-, hrun⟩
      · rw [hrun]
        exact ⟨rfl, rfl⟩
      · simp [hrun, Outcome.failed] at hfailed
  | unwindTo depth =>
      rcases scene.perform_unwindTo site place depth with ⟨-, hrun⟩ | hrun <;>
      simp [hrun, Outcome.failed] at hfailed

/-- A hook that opened a slot had its dispatch call spliced in, then its function bound. -/
theorem perform_opened {hook : Hook B} {fn : DispatchFn}
    (hopened : (scene.perform site place (.defer hook)).1.outcome = .deferred (.ok (.opened fn))) :
    fn.depth = site.depth place ∧
    (scene.perform site place (.defer hook)).1.effects =
      [.injected scene.deferral.mode (dispatchFragment fn.depth), .bound fn] ∧
    (scene.perform site place (.defer hook)).2.bound = some fn := by
  rcases scene.perform_defer site place hook with
    ⟨e, hrun⟩ | ⟨-, ⟨joined, -, hrun⟩ | ⟨-, hrun⟩⟩
  · simp [hrun] at hopened
  · simp [hrun] at hopened
  · rw [hrun] at hopened ⊢
    simp only [Outcome.deferred.injEq, Except.ok.injEq, Pending.Added.opened.injEq] at hopened
    subst hopened
    exact ⟨rfl, rfl, rfl⟩

end Scene

end TwoPhase
