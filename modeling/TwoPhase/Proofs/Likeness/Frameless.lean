import TwoPhase.Proofs.Interpreter.Within
import TwoPhase.Proofs.Likeness.Code

/-!
# Code in other frames

Where there is no limit on calls, only backtraces and `callers` tell in which frames code runs.  So
code that runs in a frame of its own follows the same code without one, and the other way round.  A
block that was put off runs in a frame named by its label, and a native sub in a scope of its own
besides; otherwise it runs as if it were called where it is reached.

What is compared here runs while the list of a dispatch function stays as it is (`steady`).
-/

namespace TwoPhase

/-- The comparison in which call frames do not count. -/
def Comparison.frameless (asked : Nat) : Comparison := ⟨True, False, False, 0, 0, asked⟩

namespace Run

variable {σ ε α : Type} (body : Run σ ε α)

theorem ensuring_id : ensuring body id = body := by
  funext s
  unfold ensuring Outcome.mapState
  cases body s <;> rfl

theorem mapError_self : mapError body (fun _ e => e) = body := by
  funext s
  unfold mapError
  cases body s <;> rfl

end Run

namespace Interpreter

open Run (Sim Keeps Triple)

variable {asked : Nat} {fn : DispatchFn} {hooks : Array (Hook DeferredBlock)} {α : Type}

/-! ## Scopes that do not count -/

/-- Code neither reads nor changes the scopes. -/
def Scopeless (body : Eval α) : Prop :=
  ∀ env s, body { s with env } = (body s).mapState fun t => { t with env }

theorem Environment.pop_pushDetached (e : Environment) (parent : Option ScopeId) :
    (e.pushDetached parent).pop = e := by
  obtain ⟨heap, inner, kept, _, _, _, hkept⟩ := e
  simp only [Environment.pushDetached, Environment.enter, Environment.pop, Environment.mk.injEq,
    and_true]
  rw [Nat.max_eq_right hkept]
  simp [Array.shrink_eq_take]

/-- Such code can as well run in a scope of its own. -/
theorem Scopeless.inDetachedScope {body : Eval α} (h : Scopeless body) (parent : Option ScopeId) :
    inDetachedScope parent body = body := by
  funext s
  have hkept : body s = (body s).mapState fun t => { t with env := s.env } := h s.env s
  calc Interpreter.inDetachedScope parent body s
      = (body { s with env := s.env.pushDetached parent }).mapState
          fun t => { t with env := t.env.pop } := rfl
    _ = (body s).mapState fun t => { t with env := (s.env.pushDetached parent).pop } := by
        rw [h]
        cases body s <;> rfl
    _ = body s := by rw [Environment.pop_pushDetached, ← hkept]

/-- A native sub called without arguments has no use for scopes. -/
theorem scopeless_native (bound : Nat) (native : Native) :
    Scopeless (run bound (.native native [])) := by
  intro env s
  cases bound with
  | zero => rfl
  | succ bound =>
      rw [run_succ]
      cases native with
      | builtin sub => cases sub <;> rfl
      | probe probe => cases probe <;> rfl

theorem inFrame_native (frame : Frame) (bound : Nat) (native : Native) :
    inFrame frame none (run bound (.native native []))
      = withFrame frame (traced (run bound (.native native []))) := by
  rw [inFrame, (scopeless_native bound native).inDetachedScope]

/-! ## Frames that do not count -/

/-- How running code is compared while a dispatch function has the same hooks. -/
@[reducible] def steady (asked : Nat) (fn : DispatchFn) (hooks : Array (Hook DeferredBlock)) :
    Run.Setting (.frameless asked) State where
  Rel s t := Matched (.frameless asked) s t ∧ s.deferral.pending.hooks fn = hooks
  Moves s t := Restored s t ∧ Within s t
  Loud s := Loud (.frameless asked) s ∨ hooks.size < (s.deferral.pending.hooks fn).size
  like h := h.1.like
  refl s := ⟨.refl s, .refl s⟩
  trans h h' := ⟨h.1.trans h'.1, h.2.trans h'.2⟩
  loud h hs := hs.imp h.1.loud fun hlt => Nat.lt_of_lt_of_le hlt (h.2.core.hooks fn).length_le

/-- Nothing need be known of states. -/
@[reducible] def anywhere : (steady asked fn hooks).Guard := ⟨fun _ => True, fun _ _ => trivial⟩

/-- Code that follows other code while a dispatch function has the same hooks. -/
abbrev Steady [HasLike α] (asked : Nat) (fn : DispatchFn) (hooks : Array (Hook DeferredBlock))
    (body body' : Eval α) : Prop :=
  Sim (steady asked fn hooks) anywhere body body'

namespace Steady

variable [HasLike α] {body body' : Eval α}

/-- A list either grew or stayed as it was. -/
theorem settle {s t u : State} (hs : s.deferral.pending.hooks fn = hooks) (hwithin : Within s t)
    (h : Matched (.frameless asked) t u) :
    (steady asked fn hooks).Loud t ∨ (steady asked fn hooks).Rel t u := by
  have hgrew := hwithin.core.hooks fn
  by_cases hgrown : hooks.size < (t.deferral.pending.hooks fn).size
  · exact .inl (.inr hgrown)
  · refine .inr ⟨h, ?_⟩
    have hlength := hgrew.length_le
    subst hs
    exact (Array.toList_inj.1 (hgrew.eq_of_length (Nat.le_antisymm hlength
      (Nat.le_of_not_lt hgrown)))).symm

theorem of_alike (h : Alike (.frameless asked) body body') (hwithin : ∀ s, Keeps (Within s) body) :
    Steady asked fn hooks body body' := by
  refine ⟨fun s => Triple.and (h.moves s) (hwithin s), fun {s t} hs _ => ?_⟩
  have hguard : (aligned (.frameless asked)).Holds s := fun haligned => haligned.elim
  cases hrun : body s with
  | cutOff => trivial
  | value a u =>
      rcases h.value hs.1 hguard hrun with hloud | ⟨a', u', hrun', ha, hu⟩
      · exact .inl (.inl hloud)
      · exact (settle hs.2 ((hwithin s).value (.refl s) hrun) hu).imp_right fun hu =>
          ⟨a', u', hrun', ha, hu⟩
  | error e u =>
      rcases h.error hs.1 hguard hrun with hloud | ⟨e', u', hrun', he, hu⟩
      · exact .inl (.inl hloud)
      · exact (settle hs.2 ((hwithin s).error (.refl s) hrun) hu).imp_right fun hu =>
          ⟨e', u', hrun', he, hu⟩

theorem traced_left (h : Steady asked fn hooks body body') :
    Steady asked fn hooks (traced body) body' := by
  rw [← Run.mapError_self body']
  refine h.mapError fun {s t e f} hs he => ⟨?_, ?_, fun _ hframes => hframes.elim⟩
  · rw [CallStack.kind_attachBacktrace, he.kind]
  · rw [CallStack.unit_attachBacktrace, he.unit]

theorem traced_right (h : Steady asked fn hooks body body') :
    Steady asked fn hooks body (traced body') := by
  rw [← Run.mapError_self body]
  refine h.mapError fun {s t e f} hs he => ⟨?_, ?_, fun _ hframes => hframes.elim⟩
  · rw [CallStack.kind_attachBacktrace, he.kind]
  · rw [CallStack.unit_attachBacktrace, he.unit]

theorem located (h : Steady asked fn hooks body body') (span : Span) :
    Steady asked fn hooks (located span body) (located span body') :=
  h.mapError fun hs he => hs.calls.attachBacktrace (Alike.locate hs (.refl span) he)

/-- Without a limit a frame is always pushed. -/
theorem push_unlimited {calls : CallStack} (h : calls.limit = none) (frame : Frame) :
    calls.push frame = .ok (calls.pushed frame) := by
  rcases calls.push_cases frame with ⟨limit, hlimit, _, _⟩ | ⟨_, hpush⟩
  · rw [h] at hlimit
    cases hlimit
  · exact hpush

/-- A frame that only the first run pushes. -/
theorem framed (h : Steady asked fn hooks body body') (frame : Frame) :
    Steady asked fn hooks (withFrame frame (traced body)) body' := by
  have htraced := h.traced_left
  refine ⟨fun s u hu => ?_, fun {s t} hs _ => ?_⟩
  · simp only [withFrame, Run.bind_apply, pushFrame]
    rcases u.calls.push_cases frame with ⟨limit, _, _, hpush⟩ | ⟨hfree, hpush⟩ <;> rw [hpush]
    · exact hu
    · refine htraced.left_moves (fun {v} hv => ?_) _ rfl
      have hwithin : Within u { v with calls := v.calls.pop } := { hv.2 with }
      exact ⟨hu.1.trans (hv.1.inFrame hfree), hu.2.trans hwithin⟩
  · have hlimit := (hs.1.unlimited fun hframes => hframes).1
    have hentered : Matched (.frameless asked) { s with calls := s.calls.pushed frame } t :=
      { hs.1 with
        like := { hs.1.like with calls := fun hframes => hframes.elim }
        unlimited := fun _ => ⟨hlimit, (hs.1.unlimited fun hframes => hframes).2⟩ }
    rw [← Run.ensuring_id body']
    simp only [withFrame, Run.bind_apply, pushFrame, push_unlimited hlimit frame]
    refine htraced.left ⟨hentered, hs.2⟩ trivial (fun hloud => hloud) fun {u v} hu => ⟨?_, hu.2⟩
    exact { hu.1 with like := { hu.1.like with calls := fun hframes => hframes.elim } }

/-- A frame that only the second run pushes. -/
theorem unframed (h : Steady asked fn hooks body body') (frame : Frame) :
    Steady asked fn hooks body (withFrame frame (traced body')) := by
  have htraced := h.traced_right
  refine ⟨h.moves, fun {s t} hs _ => ?_⟩
  have hlimit := (hs.1.unlimited fun hframes => hframes).2
  have hentered : Matched (.frameless asked) s { t with calls := t.calls.pushed frame } :=
    { hs.1 with
      like := { hs.1.like with calls := fun hframes => hframes.elim }
      unlimited := fun _ => ⟨(hs.1.unlimited fun hframes => hframes).1, hlimit⟩ }
  rw [← Run.ensuring_id body]
  simp only [withFrame, Run.bind_apply, pushFrame, push_unlimited hlimit frame]
  refine htraced.left ⟨hentered, hs.2⟩ trivial (fun hloud => hloud) fun {u v} hu => ⟨?_, hu.2⟩
  exact { hu.1 with like := { hu.1.like with calls := fun hframes => hframes.elim } }

/-! ## Blocks put off -/

theorem native (native : Native) (bound more : Nat) : Steady asked fn hooks
    (run bound (.native native [])) (run (bound + more) (.native native [])) :=
  of_alike ((run_alike _ bound more).native native .nil) fun s => run_within bound s _

theorem callSub (sub : Sub) (frame frame' : Frame) (hkind : frame.kind ≠ .beginBlock)
    (bound more : Nat) : Steady asked fn hooks (callSub (run bound) sub [] frame)
      (callSub (run (bound + more)) sub [] frame') :=
  of_alike
    (Alike.callSub (run_alike _ bound more) (.same _) .nil (fun hframes => hframes.elim) hkind)
    fun s => (run_respects bound s).callSub sub [] frame

variable {block : DeferredBlock} (hcallable : block.callable.isCallable = true) (rounds : Nat)
  (bound more : Nat) (span : Span)

include hcallable

/-- A block that is reached does what its callable does where it is called. -/
theorem called : Steady asked fn hooks (runDeferred (run bound) block span)
    (callValue rounds (run (bound + more)) block.callable [] span) := by
  obtain ⟨callable, label⟩ := block
  cases callable with
  | sub sub => exact callSub sub _ _ (by simp) bound more
  | native sub =>
      simp only [runDeferred, callValue, inFrame_native]
      exact (native sub bound more).framed _
  | _ => exact absurd hcallable Bool.false_ne_true

/-- A callable does where it is called what its block does when it is reached. -/
theorem reached : Steady asked fn hooks (callValue rounds (run bound) block.callable [] span)
    (runDeferred (run (bound + more)) block span) := by
  obtain ⟨callable, label⟩ := block
  cases callable with
  | sub sub => exact callSub sub _ _ (by simp) bound more
  | native sub =>
      simp only [runDeferred, callValue, inFrame_native]
      exact (native sub bound more).unframed _
  | _ => exact absurd hcallable Bool.false_ne_true

end Steady

end Interpreter

end TwoPhase
