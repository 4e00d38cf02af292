import TwoPhase.Run

/-!
# Triples for runs

`Triple P body Q E` says what a run does from a state with `P`: if it ends with a value, `Q` holds
of the value and the last state, and if it ends with an error, `E` holds of the error and the last
state.  A run that is cut off satisfies every triple.

An invariant is a triple with one property throughout, `Keeps I body`.  Each combinator of `Run` has
one rule, so that a fact about a program is put together in the order in which the program is
written.
-/

namespace TwoPhase.Run

variable {σ ε ε' α β : Type}

/-- What a run does from a state with `P`. -/
def Triple (P : σ → Prop) (body : Run σ ε α) (Q : α → σ → Prop) (E : ε → σ → Prop) : Prop :=
  ∀ s, P s → match body s with
    | .value a t => Q a t
    | .error e t => E e t
    | .cutOff => True

/-- A property holds after a run, failed or not, if it holds before. -/
def Keeps (I : σ → Prop) (body : Run σ ε α) : Prop :=
  Triple I body (fun _ => I) (fun _ => I)

namespace Triple

variable {P P' : σ → Prop} {Q Q' : α → σ → Prop} {E E' : ε → σ → Prop}

theorem value {body : Run σ ε α} (h : Triple P body Q E) {s t : σ} {a : α} (hs : P s)
    (hrun : body s = .value a t) : Q a t := by
  simpa [hrun] using h s hs

theorem error {body : Run σ ε α} (h : Triple P body Q E) {s t : σ} {e : ε} (hs : P s)
    (hrun : body s = .error e t) : E e t := by
  simpa [hrun] using h s hs

theorem weaken {body : Run σ ε α} (h : Triple P body Q E) (hP : ∀ s, P' s → P s)
    (hQ : ∀ a t, Q a t → Q' a t) (hE : ∀ e t, E e t → E' e t) : Triple P' body Q' E' := by
  intro s hs
  have h := h s (hP s hs)
  cases hrun : body s with
  | value a t => exact hQ a t (by simpa [hrun] using h)
  | error e t => exact hE e t (by simpa [hrun] using h)
  | cutOff => trivial

/-- What runs do from one state depends on what they are there. -/
theorem congr_at {body body' : Run σ ε α} {s : σ} (heq : body s = body' s)
    (h : Triple (· = s) body' Q E) : Triple (· = s) body Q E := by
  rintro _ rfl
  rw [heq]
  exact h _ rfl

theorem assume {p : Prop} {body : Run σ ε α} (h : p → Triple P body Q E) :
    Triple (fun s => p ∧ P s) body Q E :=
  fun s hs => h hs.1 s hs.2

theorem and {body : Run σ ε α} (h : Triple P body Q E) (h' : Triple P' body Q' E') :
    Triple (fun s => P s ∧ P' s) body (fun a t => Q a t ∧ Q' a t) (fun e t => E e t ∧ E' e t) := by
  intro s hs
  have h := h s hs.1
  have h' := h' s hs.2
  cases hrun : body s with
  | value a t =>
      rw [hrun] at h h'
      exact ⟨h, h'⟩
  | error e t =>
      rw [hrun] at h h'
      exact ⟨h, h'⟩
  | cutOff => trivial

theorem pure {a : α} : Triple (Q a) (Pure.pure a : Run σ ε α) Q E := fun _ hs => hs

theorem bind {body : Run σ ε α} {next : α → Run σ ε β} {R : β → σ → Prop}
    (hbody : Triple P body Q E) (hnext : ∀ a, Triple (Q a) (next a) R E) :
    Triple P (body >>= next) R E := by
  intro s hs
  have h := hbody s hs
  simp only [bind_apply]
  cases hrun : body s with
  | value a t => exact hnext a t (by simpa [hrun] using h)
  | error e t => simpa [hrun] using h
  | cutOff => trivial

theorem ensuring {body : Run σ ε α} {cleanup : σ → σ}
    (h : Triple P body (fun a t => Q a (cleanup t)) (fun e t => E e (cleanup t))) :
    Triple P (Run.ensuring body cleanup) Q E := by
  intro s hs
  have h := h s hs
  unfold Run.ensuring
  cases hrun : body s with
  | value a t => simpa [hrun, Outcome.mapState] using h
  | error e t => simpa [hrun, Outcome.mapState] using h
  | cutOff => trivial

/-- What an attempt gives, by how the run ended. -/
theorem attempt {body : Run σ ε α} {Q : Except ε α → σ → Prop} {E' : ε' → σ → Prop}
    (h : Triple P body (fun a => Q (.ok a)) (fun e => Q (.error e))) :
    Triple P (Run.attempt body : Run σ ε' (Except ε α)) Q E' := by
  intro s hs
  have h := h s hs
  unfold Run.attempt
  cases hrun : body s with
  | value a t => simpa [hrun] using h
  | error e t => simpa [hrun] using h
  | cutOff => trivial

theorem mapError {body : Run σ ε α} {f : σ → ε → ε'} {E' : ε' → σ → Prop}
    (h : Triple P body Q (fun e t => E' (f t e) t)) : Triple P (Run.mapError body f) Q E' := by
  intro s hs
  have h := h s hs
  unfold Run.mapError
  cases hrun : body s with
  | value a t => simpa [hrun] using h
  | error e t => simpa [hrun] using h
  | cutOff => trivial

theorem cutOff : Triple P (Run.cutOff : Run σ ε α) Q E := fun _ _ => trivial

/-- A loop keeps a property of its value and state until it is done. -/
theorem iterate {I : α → σ → Prop} {R : β → σ → Prop} {step : α → Run σ ε (Step α β)}
    (hstep : ∀ a, Triple (I a) (step a)
      (fun
        | .next a => I a
        | .done b => R b) E) :
    ∀ (rounds : Nat) (a : α), Triple (I a) (Run.iterate rounds step a) R E := by
  intro rounds
  induction rounds with
  | zero => intro a s _; trivial
  | succ rounds ih =>
      intro a s hs
      have h := hstep a s hs
      unfold Run.iterate
      cases hrun : step a s with
      | value result t =>
          rw [hrun] at h
          cases result with
          | next a => exact ih a t h
          | done b => exact h
      | error e t => simpa [hrun] using h
      | cutOff => trivial

/-- A loop does one round, and then it is done or goes on. -/
theorem unroll {P : σ → Prop} {N : α → σ → Prop} {R : β → σ → Prop} {step : α → Run σ ε (Step α β)}
    {a : α} (hstep : Triple P (step a)
      (fun
        | .next b => N b
        | .done b => R b) E)
    (hnext : ∀ rounds b, Triple (N b) (Run.iterate rounds step b) R E) (rounds : Nat) :
    Triple P (Run.iterate rounds step a) R E := by
  intro s hs
  cases rounds with
  | zero => trivial
  | succ rounds =>
      have h := hstep s hs
      unfold Run.iterate
      cases hrun : step a s with
      | value result t =>
          rw [hrun] at h
          cases result with
          | next b => exact hnext rounds b t h
          | done b => exact h
      | error e t => simpa [hrun] using h
      | cutOff => trivial

end Triple

/-- What a run does from a state with `P` if it ends with a value. -/
abbrev Yields (P : σ → Prop) (body : Run σ ε α) (Q : α → σ → Prop) : Prop :=
  Triple P body Q fun _ _ => True

theorem run?_eq_ok {body : Run σ ε α} {s t : σ} {a : α} :
    body.run? s = some (.ok a, t) ↔ body s = .value a t := by
  unfold run?
  cases body s <;> simp

theorem run?_eq_error {body : Run σ ε α} {s t : σ} {e : ε} :
    body.run? s = some (.error e, t) ↔ body s = .error e t := by
  unfold run?
  cases body s <;> simp

theorem bind_eq_value {body : Run σ ε α} {next : α → Run σ ε β} {s u : σ} {b : β} :
    (body >>= next) s = .value b u ↔ ∃ a t, body s = .value a t ∧ next a t = .value b u := by
  rw [bind_apply]
  cases body s with
  | value a t =>
      constructor
      · exact fun h => ⟨a, t, rfl, h⟩
      · rintro ⟨_, _, ⟨⟩, h⟩
        exact h
  | _ => simp

/-- What holds however a run ends. -/
theorem Triple.ends {P R : σ → Prop} {body : Run σ ε α} (h : Triple P body (fun _ => R) fun _ => R)
    {s t : σ} {result : Except ε α} (hs : P s) (hrun : body.run? s = some (result, t)) : R t := by
  have h := h s hs
  unfold run? at hrun
  cases hend : body s with
  | cutOff =>
      rw [hend] at hrun
      cases hrun
  | _ =>
      rw [hend] at h hrun
      cases hrun
      exact h

/-! ## Invariants -/

namespace Keeps

variable {I : σ → Prop}

theorem pure (a : α) : Keeps I (Pure.pure a : Run σ ε α) := fun _ hs => hs

theorem throw (e : ε) : Keeps I (MonadExcept.throw e : Run σ ε α) := fun _ hs => hs

theorem bind {body : Run σ ε α} {next : α → Run σ ε β} (hbody : Keeps I body)
    (hnext : ∀ a, Keeps I (next a)) : Keeps I (body >>= next) :=
  Triple.bind hbody hnext

theorem get : Keeps I (MonadState.get : Run σ ε σ) := fun _ hs => hs

theorem update {f : σ → σ} (h : ∀ s, I s → I (f s)) : Keeps I (modify f : Run σ ε PUnit) :=
  fun s hs => h s hs

theorem modifyGet {f : σ → α × σ} (h : ∀ s, I s → I (f s).2) :
    Keeps I (MonadState.modifyGet f : Run σ ε α) :=
  fun s hs => h s hs

theorem ensuring {body : Run σ ε α} {cleanup : σ → σ} (hbody : Keeps I body)
    (h : ∀ s, I s → I (cleanup s)) : Keeps I (Run.ensuring body cleanup) :=
  Triple.ensuring (hbody.weaken (fun _ => id) (fun _ => h) (fun _ => h))

theorem attempt {body : Run σ ε α} (hbody : Keeps I body) :
    Keeps I (Run.attempt body : Run σ ε' (Except ε α)) :=
  Triple.attempt hbody

theorem mapError {body : Run σ ε α} (hbody : Keeps I body) (f : σ → ε → ε') :
    Keeps I (Run.mapError body f) :=
  Triple.mapError hbody

theorem ofExcept (result : Except ε α) : Keeps I (Run.ofExcept result) := by
  intro s hs
  unfold Run.ofExcept
  cases result <;> exact hs

theorem iterate {step : α → Run σ ε (Step α β)} (hstep : ∀ a, Keeps I (step a)) (rounds : Nat)
    (a : α) : Keeps I (Run.iterate rounds step a) :=
  Triple.iterate (I := fun _ => I) (fun a => (hstep a).weaken (fun _ => id)
    (fun result _ h => by cases result <;> exact h) (fun _ _ => id)) rounds a

/-- However a run ends, it has kept a property if it does at all. -/
theorem iff_run? {body : Run σ ε α} :
    Keeps I body ↔ ∀ {s t result}, I s → body.run? s = some (result, t) → I t := by
  constructor
  · intro h s t result hs hrun
    exact h.ends hs hrun
  · intro h s hs
    cases hend : body s with
    | cutOff => trivial
    | _ => exact h hs (by rw [run?, hend])

end Keeps

/-! ## Testing

How a run on given input ends can be computed, and so can a test of what it ends with. -/

namespace Outcome

/-- Whether a run ended with a value, and value and state pass a test. -/
def valueWith (outcome : Outcome σ ε α) (test : α → σ → Bool) : Bool :=
  match outcome with
  | value a t => test a t
  | _ => false

/-- Whether a run ended with an error, and error and state pass a test. -/
def errorWith (outcome : Outcome σ ε α) (test : ε → σ → Bool) : Bool :=
  match outcome with
  | error e t => test e t
  | _ => false

theorem exists_value {outcome : Outcome σ ε α} {test : α → σ → Bool}
    (h : outcome.valueWith test = true) : ∃ a t, outcome = value a t ∧ test a t = true := by
  cases outcome with
  | value a t => exact ⟨a, t, rfl, h⟩
  | error e t => cases h
  | cutOff => cases h

theorem exists_error {outcome : Outcome σ ε α} {test : ε → σ → Bool}
    (h : outcome.errorWith test = true) : ∃ e t, outcome = error e t ∧ test e t = true := by
  cases outcome with
  | value a t => cases h
  | error e t => exact ⟨e, t, rfl, h⟩
  | cutOff => cases h

end Outcome

end TwoPhase.Run
