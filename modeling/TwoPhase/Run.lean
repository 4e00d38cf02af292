/-!
# Runs

A run changes a state and ends with a value or an error; an error keeps the state it was raised in.
A run may also be cut off: every loop is given a number of rounds, and a run that needs more has no
end at all.

Runs form a lawful monad.  What each operation does to a state is a simp lemma, so that a proof
about a program goes through it step by step.
-/

namespace TwoPhase

/-- How a run ends. -/
inductive Run.Outcome (σ ε α : Type) where
  /-- With a value. -/
  | value (value : α) (state : σ)
  /-- With an error. -/
  | error (error : ε) (state : σ)
  /-- Not at all. -/
  | cutOff

/-- A computation with state `σ` and errors `ε`. -/
def Run (σ ε α : Type) := σ → Run.Outcome σ ε α

namespace Run

variable {σ τ ε ε' α β : Type}

/-- The same outcome, with the state seen in another way. -/
@[inline] def Outcome.mapState (outcome : Outcome σ ε α) (f : σ → τ) : Outcome τ ε α :=
  match outcome with
  | value a s => value a (f s)
  | error e s => error e (f s)
  | cutOff => cutOff

instance : Monad (Run σ ε) where
  pure a := fun s => .value a s
  bind body next := fun s =>
    match body s with
    | .value a s => next a s
    | .error e s => .error e s
    | .cutOff => .cutOff

instance : MonadStateOf σ (Run σ ε) where
  get := fun s => .value s s
  set s := fun _ => .value () s
  modifyGet f := fun s =>
    let (a, s) := f s
    .value a s

instance : MonadExceptOf ε (Run σ ε) where
  throw e := fun s => .error e s
  tryCatch body handle := fun s =>
    match body s with
    | .value a s => .value a s
    | .error e s => handle e s
    | .cutOff => .cutOff

@[simp] theorem pure_apply (a : α) (s : σ) : (pure a : Run σ ε α) s = .value a s := rfl

@[simp] theorem bind_apply (body : Run σ ε α) (next : α → Run σ ε β) (s : σ) :
    (body >>= next) s =
      match body s with
      | .value a s => next a s
      | .error e s => .error e s
      | .cutOff => .cutOff := rfl

@[simp] theorem get_apply (s : σ) : (get : Run σ ε σ) s = .value s s := rfl

@[simp] theorem set_apply (s t : σ) : (set s : Run σ ε PUnit) t = .value () s := rfl

@[simp] theorem modify_apply (f : σ → σ) (s : σ) :
    (modify f : Run σ ε PUnit) s = .value () (f s) := rfl

@[simp] theorem modifyGet_apply (f : σ → α × σ) (s : σ) :
    (modifyGet f : Run σ ε α) s = .value (f s).1 (f s).2 := rfl

@[simp] theorem throw_apply (e : ε) (s : σ) : (throw e : Run σ ε α) s = .error e s := rfl

instance : LawfulMonad (Run σ ε) := .mk' _
  (fun body => funext fun s => by
    change (body >>= fun a => pure a) s = body s
    rw [bind_apply]
    cases body s <;> rfl)
  (fun _ _ => rfl)
  (fun body _ _ => funext fun s => by
    simp only [bind_apply]
    cases body s <;> rfl)

/-- The run that is cut off. -/
def cutOff : Run σ ε α := fun _ => .cutOff

/-- What a round of a loop decides. -/
inductive Step (α β : Type) where
  | next (value : α)
  | done (result : β)

/-- Repeats a step until it is done, for at most `rounds` rounds. -/
@[specialize] def iterate (rounds : Nat) (step : α → Run σ ε (Step α β)) (value : α) :
    Run σ ε β := fun s =>
  match rounds with
  | 0 => .cutOff
  | rounds + 1 =>
    match step value s with
    | .value (.next value) s => iterate rounds step value s
    | .value (.done result) s => .value result s
    | .error e s => .error e s
    | .cutOff => .cutOff

/-- Runs `body`, then changes the state, whether `body` failed or not. -/
@[inline] def ensuring (body : Run σ ε α) (cleanup : σ → σ) : Run σ ε α := fun s =>
  (body s).mapState cleanup

/-- Runs `body` with its value or error as the value. -/
@[inline] def attempt (body : Run σ ε α) : Run σ ε' (Except ε α) := fun s =>
  match body s with
  | .value a s => .value (.ok a) s
  | .error e s => .value (.error e) s
  | .cutOff => .cutOff

/-- Changes an error by what the state is when it passes. -/
@[inline] def mapError (body : Run σ ε α) (f : σ → ε → ε') : Run σ ε' α := fun s =>
  match body s with
  | .value a s => .value a s
  | .error e s => .error (f s e) s
  | .cutOff => .cutOff

/-- Ends with a given value or error. -/
def ofExcept (result : Except ε α) : Run σ ε α := fun s =>
  match result with
  | .ok a => .value a s
  | .error e => .error e s

/-- The result and the last state; there is none if the run is cut off. -/
def run? (body : Run σ ε α) (s : σ) : Option (Except ε α × σ) :=
  match body s with
  | .value a s => some (.ok a, s)
  | .error e s => some (.error e, s)
  | .cutOff => none

end Run

end TwoPhase
