import TwoPhase.Proofs.Likeness.Basic
import TwoPhase.Proofs.Triple

/-!
# Two runs at once

`Sim` says of two runs from related states that the second follows the first: if the first ends with
a value or an error, so does the second, with one that is alike, and the states are related again.
Nothing is said of a first run that is cut off.

A first run may become loud, which is to say that something happened that the comparison does not
cover.  From then on nothing is said of the second run either; but no run becomes quiet again.

Each combinator of `Run` has one rule, as for triples.
-/

namespace TwoPhase.Run

variable {K : Comparison} {σ ε ε' α β : Type}

instance [HasLike α] [HasLike β] : HasLike (Step α β) where
  Like K
    | .next a, .next b => Like K a b
    | .done a, .done b => Like K a b
    | _, _ => False
  like_refl K
    | .next a => like_refl K a
    | .done b => like_refl K b

/-- How states are compared. -/
structure Setting (K : Comparison) (σ : Type) [HasLike σ] where
  /-- The states of two runs that go side by side. -/
  Rel : σ → σ → Prop
  /-- What any code can do between two states of one run. -/
  Moves : σ → σ → Prop
  /-- Something happened that the comparison does not cover. -/
  Loud : σ → Prop
  like : ∀ {s t : σ}, Rel s t → Like K s t
  refl : ∀ s : σ, Moves s s
  trans : ∀ {s t u : σ}, Moves s t → Moves t u → Moves s u
  loud : ∀ {s t : σ}, Moves s t → Loud s → Loud t

variable [HasLike σ]

/-- A property of the first state that all code keeps. -/
structure Setting.Guard (S : Setting K σ) where
  Holds : σ → Prop
  moves : ∀ {s t : σ}, S.Moves s t → Holds s → Holds t

variable [HasLike ε] [HasLike ε'] [HasLike α] [HasLike β]

/-- The second run ended like the first, unless that became loud. -/
def Outcome.Follows (S : Setting K σ) (first second : Outcome σ ε α) : Prop :=
  match first with
  | .value a t => S.Loud t ∨ ∃ a' t', second = .value a' t' ∧ Like K a a' ∧ S.Rel t t'
  | .error e t => S.Loud t ∨ ∃ e' t', second = .error e' t' ∧ Like K e e' ∧ S.Rel t t'
  | .cutOff => True

/-- From related states, the second run follows the first. -/
structure Sim (S : Setting K σ) (A : S.Guard) (body body' : Run σ ε α) : Prop where
  moves : ∀ s, Keeps (S.Moves s) body
  follows : ∀ {s t : σ}, S.Rel s t → A.Holds s → (body s).Follows S (body' t)

namespace Sim

variable {S : Setting K σ} {A B : S.Guard} {body body' : Run σ ε α} {s t : σ}

/-! ## Results -/

theorem moves_value (h : Sim S A body body') {a : α} (hrun : body s = .value a t) : S.Moves s t :=
  (h.moves s).value (S.refl s) hrun

theorem moves_error (h : Sim S A body body') {e : ε} (hrun : body s = .error e t) : S.Moves s t :=
  (h.moves s).error (S.refl s) hrun

theorem value (h : Sim S A body body') {s' : σ} (hs : S.Rel s s') (hA : A.Holds s) {a : α}
    (hrun : body s = .value a t) :
    S.Loud t ∨ ∃ a' t', body' s' = .value a' t' ∧ Like K a a' ∧ S.Rel t t' := by
  simpa only [Outcome.Follows, hrun] using h.follows hs hA

theorem error (h : Sim S A body body') {s' : σ} (hs : S.Rel s s') (hA : A.Holds s) {e : ε}
    (hrun : body s = .error e t) :
    S.Loud t ∨ ∃ e' t', body' s' = .error e' t' ∧ Like K e e' ∧ S.Rel t t' := by
  simpa only [Outcome.Follows, hrun] using h.follows hs hA

/-- A run that starts loud ends loud. -/
theorem loud {o o' : Outcome σ ε α} (hs : S.Loud s) (hvalue : ∀ a t, o = .value a t → S.Moves s t)
    (herror : ∀ e t, o = .error e t → S.Moves s t) : o.Follows S o' := by
  cases o with
  | value a t => exact .inl (S.loud (hvalue a t rfl) hs)
  | error e t => exact .inl (S.loud (herror e t rfl) hs)
  | cutOff => trivial

/-! ## Rules -/

theorem pure {a b : α} (h : Like K a b) :
    Sim S A (Pure.pure a : Run σ ε α) (Pure.pure b) :=
  ⟨fun _ => .pure a, fun {_ t} hs _ => .inr ⟨b, t, rfl, h, hs⟩⟩

theorem throw {e f : ε} (h : Like K e f) :
    Sim S A (MonadExcept.throw e : Run σ ε α) (MonadExcept.throw f) :=
  ⟨fun _ => .throw e, fun {_ t} hs _ => .inr ⟨f, t, rfl, h, hs⟩⟩

theorem cutOff : Sim S A (Run.cutOff : Run σ ε α) body' :=
  ⟨fun _ _ _ => trivial, fun _ _ => trivial⟩

theorem bind {next next' : α → Run σ ε β} (h : Sim S A body body')
    (hnext : ∀ a b, Like K a b → Sim S A (next a) (next' b)) :
    Sim S A (body >>= next) (body' >>= next') := by
  have hself := fun a => hnext a a (like_refl K a)
  refine ⟨fun s => (h.moves s).bind fun a => (hself a).moves s, fun {s s'} hs hA => ?_⟩
  simp only [bind_apply]
  cases hrun : body s with
  | cutOff => trivial
  | error e t =>
      rcases h.error hs hA hrun with hloud | ⟨e', t', hrun', he, ht⟩
      · exact .inl hloud
      · rw [hrun']
        exact .inr ⟨e', t', rfl, he, ht⟩
  | value a t =>
      rcases h.value hs hA hrun with hloud | ⟨a', t', hrun', ha, ht⟩
      · exact loud hloud (fun _ _ => (hself a).moves_value) (fun _ _ => (hself a).moves_error)
      · rw [hrun']
        exact (hnext a a' ha).follows ht (A.moves (h.moves_value hrun) hA)

/-- What code reads of the state is alike. -/
theorem get {next next' : σ → Run σ ε β} (hnext : ∀ s t, Like K s t → Sim S A (next s) (next' t)) :
    Sim S A (MonadState.get >>= next) (MonadState.get >>= next') :=
  ⟨fun s => fun u hu => (hnext u u (like_refl K u)).moves s u hu,
    fun {s t} hs hA => (hnext s t (S.like hs)).follows hs hA⟩

theorem modifyGet {f g : σ → α × σ} (hmoves : ∀ s, S.Moves s (f s).2)
    (hrel : ∀ {s t}, S.Rel s t → A.Holds s →
      S.Loud (f s).2 ∨ Like K (f s).1 (g t).1 ∧ S.Rel (f s).2 (g t).2) :
    Sim S A (MonadState.modifyGet f : Run σ ε α) (MonadState.modifyGet g) := by
  refine ⟨fun s => .modifyGet fun u hu => S.trans hu (hmoves u), fun {s t} hs hA => ?_⟩
  rcases hrel hs hA with hloud | ⟨hvalue, hstate⟩
  · exact .inl hloud
  · exact .inr ⟨_, _, rfl, hvalue, hstate⟩

theorem update {f g : σ → σ} (hmoves : ∀ s, S.Moves s (f s))
    (hrel : ∀ {s t}, S.Rel s t → A.Holds s → S.Loud (f s) ∨ S.Rel (f s) (g t)) :
    Sim S A (modify f : Run σ ε PUnit) (modify g) :=
  modifyGet hmoves fun hs hA => (hrel hs hA).imp_right fun h => ⟨rfl, h⟩

/-- Leaving something after code in it, whether it failed or not. -/
theorem left {leave leave' : σ → σ} (hbody : Sim S B body body') {s s' : σ} (hs : S.Rel s s')
    (hB : B.Holds s) (hloud : ∀ {t}, S.Loud t → S.Loud (leave t))
    (hleave : ∀ {t t'}, S.Rel t t' → S.Rel (leave t) (leave' t')) :
    (Run.ensuring body leave s).Follows S (Run.ensuring body' leave' s') := by
  unfold Run.ensuring
  cases hrun : body s with
  | cutOff => trivial
  | value a t =>
      rcases hbody.value hs hB hrun with h | ⟨a', t', hrun', ha, ht⟩
      · exact .inl (hloud h)
      · rw [hrun']
        exact .inr ⟨a', leave' t', rfl, ha, hleave ht⟩
  | error e t =>
      rcases hbody.error hs hB hrun with h | ⟨e', t', hrun', he, ht⟩
      · exact .inl (hloud h)
      · rw [hrun']
        exact .inr ⟨e', leave' t', rfl, he, hleave ht⟩

/-- Where code comes to that enters something and leaves it again. -/
theorem left_moves {leave : σ → σ} (hbody : Sim S B body body') {s u : σ}
    (hmoves : ∀ {t}, S.Moves s t → S.Moves u (leave t)) :
    Triple (· = s) (Run.ensuring body leave) (fun _ => S.Moves u) (fun _ => S.Moves u) := by
  refine .ensuring ?_
  rintro v rfl
  exact (hbody.moves v).weaken (fun _ h => h) (fun _ _ => hmoves) (fun _ _ => hmoves) v (S.refl v)

/-- Code between entering something and leaving it again. -/
theorem between {enter enter' leave leave' : σ → σ} (hbody : Sim S B body body')
    (hmoves : ∀ {s t}, S.Moves (enter s) t → S.Moves s (leave t))
    (hloud : ∀ {t}, S.Loud t → S.Loud (leave t))
    (henter : ∀ {s s'}, S.Rel s s' → A.Holds s → S.Rel (enter s) (enter' s') ∧ B.Holds (enter s))
    (hleave : ∀ {t t'}, S.Rel t t' → S.Rel (leave t) (leave' t')) :
    Sim S A (do modify enter; Run.ensuring body leave)
      (do modify enter'; Run.ensuring body' leave') :=
  ⟨fun _ u hu => hbody.left_moves (fun h => S.trans hu (hmoves h)) (enter u) rfl,
    fun hs hA => hbody.left (henter hs hA).1 (henter hs hA).2 hloud hleave⟩

/-- Code between entering something and leaving it again, where leaving gives a value. -/
theorem attemptBetween {γ δ : Type} [HasLike γ] [HasLike δ] {enter enter' : σ → σ}
    {leave leave' : σ → γ × σ} {next next' : Except ε α → γ → Run σ ε' δ}
    (hbody : Sim S B body body')
    (hmoves : ∀ {s t}, S.Moves (enter s) t → S.Moves s (leave t).2)
    (hloud : ∀ {t}, S.Loud t → S.Loud (leave t).2)
    (henter : ∀ {s s'}, S.Rel s s' → A.Holds s → S.Rel (enter s) (enter' s') ∧ B.Holds (enter s))
    (hleave : ∀ {t t'}, S.Rel t t' →
      Like K (leave t).1 (leave' t').1 ∧ S.Rel (leave t).2 (leave' t').2)
    (hnext : ∀ r r' c c', Like K r r' → Like K c c' → Sim S A (next r c) (next' r' c')) :
    Sim S A
      (do
        modify enter
        let r ← Run.attempt body
        let c ← MonadState.modifyGet leave
        next r c)
      (do
        modify enter'
        let r ← Run.attempt body'
        let c ← MonadState.modifyGet leave'
        next' r c) := by
  have hself := fun r c => hnext r r c c (like_refl K r) (like_refl K c)
  refine ⟨fun s u hu => ?_, fun {s s'} hs hA => ?_⟩
  · simp only [bind_apply, modify_apply, modifyGet_apply, Run.attempt]
    cases hrun : body (enter u) with
    | value a t =>
        exact (hself _ _).moves s _ (S.trans hu (hmoves (hbody.moves_value hrun)))
    | error e t =>
        exact (hself _ _).moves s _ (S.trans hu (hmoves (hbody.moves_error hrun)))
    | cutOff => trivial
  · -- what follows is the same whether the code in between failed or not
    obtain ⟨hs', hB⟩ := henter hs hA
    simp only [bind_apply, modify_apply, modifyGet_apply, Run.attempt]
    cases hrun : body (enter s) with
    | cutOff => trivial
    | value a t =>
        rcases hbody.value hs' hB hrun with h | ⟨a', t', hrun', ha, ht⟩
        · exact loud (hloud h) (fun _ _ => (hself _ _).moves_value)
            (fun _ _ => (hself _ _).moves_error)
        · rw [hrun']
          exact (hnext (.ok a) (.ok a') _ _ ha (hleave ht).1).follows (hleave ht).2
            (A.moves (hmoves (hbody.moves_value hrun)) hA)
    | error e t =>
        rcases hbody.error hs' hB hrun with h | ⟨e', t', hrun', he, ht⟩
        · exact loud (hloud h) (fun _ _ => (hself _ _).moves_value)
            (fun _ _ => (hself _ _).moves_error)
        · rw [hrun']
          exact (hnext (.error e) (.error e') _ _ he (hleave ht).1).follows (hleave ht).2
            (A.moves (hmoves (hbody.moves_error hrun)) hA)

theorem attempt (h : Sim S A body body') :
    Sim S A (Run.attempt body : Run σ ε' (Except ε α)) (Run.attempt body') := by
  refine ⟨fun s => (h.moves s).attempt, fun {s s'} hs hA => ?_⟩
  unfold Run.attempt
  cases hrun : body s with
  | cutOff => trivial
  | value a t =>
      rcases h.value hs hA hrun with hloud | ⟨a', t', hrun', ha, ht⟩
      · exact .inl hloud
      · rw [hrun']
        exact .inr ⟨.ok a', t', rfl, ha, ht⟩
  | error e t =>
      rcases h.error hs hA hrun with hloud | ⟨e', t', hrun', he, ht⟩
      · exact .inl hloud
      · rw [hrun']
        exact .inr ⟨.error e', t', rfl, he, ht⟩

theorem mapError {f g : σ → ε → ε'} (h : Sim S A body body')
    (hfg : ∀ {s t e e'}, Like K s t → Like K e e' → Like K (f s e) (g t e')) :
    Sim S A (Run.mapError body f) (Run.mapError body' g) := by
  refine ⟨fun s => (h.moves s).mapError f, fun {s s'} hs hA => ?_⟩
  unfold Run.mapError
  cases hrun : body s with
  | cutOff => trivial
  | value a t =>
      rcases h.value hs hA hrun with hloud | ⟨a', t', hrun', ha, ht⟩
      · exact .inl hloud
      · rw [hrun']
        exact .inr ⟨a', t', rfl, ha, ht⟩
  | error e t =>
      rcases h.error hs hA hrun with hloud | ⟨e', t', hrun', he, ht⟩
      · exact .inl hloud
      · rw [hrun']
        exact .inr ⟨_, t', rfl, hfg (S.like ht) he, ht⟩

theorem ofExcept {result result' : Except ε α} (h : Like K result result') :
    Sim S A (Run.ofExcept result) (Run.ofExcept result') := by
  cases result <;> cases result'
  · exact throw h
  · exact h.elim
  · exact h.elim
  · exact pure h

/-- A loop follows another that has at least as many rounds. -/
theorem iterate {step step' : α → Run σ ε (Step α β)}
    (hstep : ∀ a b, Like K a b → Sim S A (step a) (step' b)) {rounds rounds' : Nat}
    (hrounds : rounds ≤ rounds') {a b : α} (hab : Like K a b) :
    Sim S A (Run.iterate rounds step a) (Run.iterate rounds' step' b) := by
  have hself := fun a => hstep a a (like_refl K a)
  have hmoves : ∀ rounds a s, Keeps (S.Moves s) (Run.iterate rounds step a) :=
    fun rounds a s => .iterate (fun a => (hself a).moves s) rounds a
  refine ⟨hmoves rounds a, fun {s s'} hs hA => ?_⟩
  induction rounds generalizing rounds' a b s s' with
  | zero => trivial
  | succ rounds ih =>
      -- on the rounds of the first loop; the second has one left for each
      obtain ⟨rounds', rfl⟩ := Nat.exists_eq_add_of_le'
        (Nat.lt_of_lt_of_le (Nat.succ_pos _) hrounds)
      rw [Run.iterate, Run.iterate]
      cases hrun : step a s with
      | cutOff => trivial
      | error e t =>
          rcases (hstep a b hab).error hs hA hrun with hloud | ⟨e', t', hrun', he, ht⟩
          · exact .inl hloud
          · rw [hrun']
            exact .inr ⟨e', t', rfl, he, ht⟩
      | value result t =>
          have hA' := A.moves ((hself a).moves_value hrun) hA
          rcases (hstep a b hab).value hs hA hrun with hloud | ⟨result', t', hrun', hresult, ht⟩
          · cases result with
            | done r => exact .inl hloud
            | next a =>
                exact loud hloud (fun _ _ h => (hmoves rounds a t).value (S.refl t) h)
                  (fun _ _ h => (hmoves rounds a t).error (S.refl t) h)
          · rw [hrun']
            cases result <;> cases result'
            · exact ih (Nat.le_of_succ_le_succ hrounds) hresult ht hA'
            · exact hresult.elim
            · exact hresult.elim
            · exact .inr ⟨_, t', rfl, hresult, ht⟩

end Sim

end TwoPhase.Run
