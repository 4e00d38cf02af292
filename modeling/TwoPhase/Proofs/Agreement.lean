import TwoPhase.Proofs.Triple

/-!
# Runs that agree

`Agrees R E s body body' Q` says that two runs from one state come to the same, and what that is: a
state to which `R` leads, with `Q` of the value there, or with `E` of the error.  Nothing more is
said of runs that are cut off, but one is if and only if the other is.

Two runs that put questions to others agree as long as the answers do.  So a proof by these rules
shows two things at once: what becomes of a run, and which questions that can depend on.

Each combinator of `Run` has one rule, as for triples.
-/

namespace TwoPhase.Run

variable {σ ε ε' α β : Type}

/-- From a state, two runs come to the same, and to what is said of it. -/
def Agrees (R : σ → σ → Prop) (E : ε → σ → Prop) (s : σ) (body body' : Run σ ε α)
    (Q : α → σ → Prop) : Prop :=
  body' s = body s ∧ match body s with
    | .value a t => R s t ∧ Q a t
    | .error e t => R s t ∧ E e t
    | .cutOff => True

namespace Agrees

variable {R R' : σ → σ → Prop} {E : ε → σ → Prop} {E' : ε' → σ → Prop} {s : σ}
  {body body' : Run σ ε α} {next next' : α → Run σ ε β} {Q Q' : α → σ → Prop} {P : β → σ → Prop}

/-! ## Results -/

theorem same (h : Agrees R E s body body' Q) : body' s = body s := h.1

theorem value (h : Agrees R E s body body' Q) {a : α} {t : σ} (hrun : body s = .value a t) :
    R s t ∧ Q a t := by
  simpa only [hrun] using h.2

theorem error (h : Agrees R E s body body' Q) {e : ε} {t : σ} (hrun : body s = .error e t) :
    R s t ∧ E e t := by
  simpa only [hrun] using h.2

/-- However a run ends, it leads somewhere. -/
theorem leads (h : Agrees R E s body body' Q) {result : Except ε α} {t : σ}
    (hrun : body.run? s = some (result, t)) : R s t := by
  unfold run? at hrun
  cases hend : body s with
  | value a u =>
      rw [hend] at hrun
      cases hrun
      exact (h.value hend).1
  | error e u =>
      rw [hend] at hrun
      cases hrun
      exact (h.error hend).1
  | cutOff =>
      rw [hend] at hrun
      cases hrun

theorem of_ends (hsame : body' s = body s) (hvalue : ∀ a t, body s = .value a t → R s t ∧ Q a t)
    (herror : ∀ e t, body s = .error e t → R s t ∧ E e t) : Agrees R E s body body' Q := by
  refine ⟨hsame, ?_⟩
  cases hrun : body s with
  | value a t => exact hvalue a t hrun
  | error e t => exact herror e t hrun
  | cutOff => trivial

theorem weaken {E' : ε → σ → Prop} (h : Agrees R E s body body' Q) (hR : ∀ t, R s t → R' s t)
    (hQ : ∀ a t, R s t → Q a t → Q' a t) (hE : ∀ e t, R s t → E e t → E' e t) :
    Agrees R' E' s body body' Q' := by
  refine of_ends h.same (fun a t hrun => ?_) fun e t hrun => ?_
  · obtain ⟨hst, ha⟩ := h.value hrun
    exact ⟨hR t hst, hQ a t hst ha⟩
  · obtain ⟨hst, he⟩ := h.error hrun
    exact ⟨hR t hst, hE e t hst he⟩

/-! ## Rules -/

theorem pure {a : α} (hR : R s s) (h : Q a s) :
    Agrees R E s (Pure.pure a : Run σ ε α) (Pure.pure a) Q :=
  ⟨rfl, hR, h⟩

theorem throw {e : ε} (hR : R s s) (h : E e s) :
    Agrees R E s (MonadExcept.throw e : Run σ ε α) (MonadExcept.throw e) Q :=
  ⟨rfl, hR, h⟩

theorem ofExcept {result : Except ε α} (hR : R s s)
    (h : match result with
      | .ok a => Q a s
      | .error e => E e s) :
    Agrees R E s (Run.ofExcept result) (Run.ofExcept result) Q := by
  cases result <;> exact ⟨rfl, hR, h⟩

theorem get {next next' : σ → Run σ ε α} (h : Agrees R E s (next s) (next' s) Q) :
    Agrees R E s (MonadState.get >>= next) (MonadState.get >>= next') Q :=
  h

theorem update {f : σ → σ} {Q : PUnit → σ → Prop} (hR : R s (f s)) (h : Q ⟨⟩ (f s)) :
    Agrees R E s (modify f : Run σ ε PUnit) (modify f) Q :=
  ⟨rfl, hR, h⟩

theorem modifyGet {f : σ → α × σ} (hR : R s (f s).2) (h : Q (f s).1 (f s).2) :
    Agrees R E s (MonadState.modifyGet f : Run σ ε α) (MonadState.modifyGet f) Q :=
  ⟨rfl, hR, h⟩

theorem bind [Trans R R R] (h : Agrees R E s body body' Q)
    (hnext : ∀ a t, R s t → Q a t → Agrees R E t (next a) (next' a) P) :
    Agrees R E s (body >>= next) (body' >>= next') P := by
  simp only [Agrees, bind_apply, h.same]
  cases hrun : body s with
  | value a t =>
      obtain ⟨hst, ha⟩ := h.value hrun
      have hrest := hnext a t hst ha
      refine ⟨hrest.same, ?_⟩
      dsimp only
      cases hend : next a t with
      | value b u => exact ⟨Trans.trans hst (hrest.value hend).1, (hrest.value hend).2⟩
      | error e u => exact ⟨Trans.trans hst (hrest.error hend).1, (hrest.error hend).2⟩
      | cutOff => trivial
  | error e t => exact ⟨rfl, h.error hrun⟩
  | cutOff => exact ⟨rfl, trivial⟩

/-- What is entered before a run and left after it, whether it failed or not. -/
theorem between {enter : Run σ ε PUnit} {g : σ → σ} {u : σ} {E' : ε → σ → Prop}
    (h : Agrees R E u body body' Q) (henter : enter s = .value ⟨⟩ u)
    (hvalue : ∀ a t, R u t → Q a t → R' s (g t) ∧ Q' a (g t))
    (herror : ∀ e t, R u t → E e t → R' s (g t) ∧ E' e (g t)) :
    Agrees R' E' s (do enter; Run.ensuring body g) (do enter; Run.ensuring body' g) Q' := by
  simp only [Agrees, bind_apply, henter, Run.ensuring, h.same]
  cases hrun : body u with
  | value a t => exact ⟨trivial, hvalue a t (h.value hrun).1 (h.value hrun).2⟩
  | error e t => exact ⟨trivial, herror e t (h.error hrun).1 (h.error hrun).2⟩
  | cutOff => exact ⟨trivial, trivial⟩

/-- What an attempt gives, by how the runs ended. -/
theorem attempt (h : Agrees R E s body body' Q) :
    Agrees R E' s (Run.attempt body) (Run.attempt body') fun result t => match result with
      | .ok a => Q a t
      | .error e => E e t := by
  simp only [Agrees, Run.attempt, h.same]
  cases hrun : body s with
  | value a t => exact ⟨trivial, h.value hrun⟩
  | error e t => exact ⟨trivial, h.error hrun⟩
  | cutOff => exact ⟨trivial, trivial⟩

theorem mapError {f : σ → ε → ε'} (h : Agrees R E s body body' Q)
    (hE : ∀ e t, R s t → E e t → E' (f t e) t) :
    Agrees R E' s (Run.mapError body f) (Run.mapError body' f) Q := by
  simp only [Agrees, Run.mapError, h.same]
  cases hrun : body s with
  | value a t => exact ⟨trivial, h.value hrun⟩
  | error e t => exact ⟨trivial, (h.error hrun).1, hE e t (h.error hrun).1 (h.error hrun).2⟩
  | cutOff => exact ⟨trivial, trivial⟩

/-- Loops whose rounds agree. -/
theorem iterate [Trans R R R] {J : α → σ → Prop} {step step' : α → Run σ ε (Step α β)}
    (hstep : ∀ a t, J a t → Agrees R E t (step a) (step' a) fun result u => match result with
      | .next a => J a u
      | .done b => P b u)
    (rounds : Nat) (a : α) (ha : J a s) :
    Agrees R E s (Run.iterate rounds step a) (Run.iterate rounds step' a) P := by
  induction rounds generalizing a s with
  | zero => exact ⟨rfl, trivial⟩
  | succ rounds ih =>
      have hround := hstep a s ha
      unfold Agrees Run.iterate
      rw [hround.same]
      cases hrun : step a s with
      | value result t =>
          obtain ⟨hst, hresult⟩ := hround.value hrun
          cases result with
          | next b =>
              have hrest := ih b hresult
              refine ⟨hrest.same, ?_⟩
              dsimp only
              cases hend : Run.iterate rounds step b t with
              | value c u => exact ⟨Trans.trans hst (hrest.value hend).1, (hrest.value hend).2⟩
              | error e u => exact ⟨Trans.trans hst (hrest.error hend).1, (hrest.error hend).2⟩
              | cutOff => trivial
          | done b => exact ⟨rfl, hst, hresult⟩
      | error e t => exact ⟨rfl, hround.error hrun⟩
      | cutOff => exact ⟨rfl, trivial⟩

end Agrees

end TwoPhase.Run
