import TwoPhase.Proofs.Deferral.Operations

/-!
# The binding follows the slots

Slots and the binding of the dispatch name change by separate requests, and not every operation
makes both.  Still the bound function is always that of a slot.  Constructions nest, so hooks are
put off, and depths cleared, no shallower than any slot; then the bound function is that of the
deepest slot.

Both are invariants of a scene: every operation keeps them, so every run does.
-/

namespace TwoPhase

variable {B σ : Type}

namespace Pending

variable {p : Pending B} {fn? : Option DispatchFn}

/-! ## The deepest slot -/

/-- The function, if any, is that of the deepest slot. -/
def Topmost (p : Pending B) : Option DispatchFn → Prop
  | none => ∀ k, p.dispatchAt? k = none
  | some fn => p.dispatchAt? fn.depth = some fn ∧ ∀ k, fn.depth < k → p.dispatchAt? k = none

theorem Topmost.congr {q : Pending B} (h : p.Topmost fn?)
    (hq : ∀ k, q.dispatchAt? k = p.dispatchAt? k) : q.Topmost fn? := by
  cases fn? <;> simpa [Topmost, hq] using h

/-- With no slot deeper than `depth`, the nearest one from there is the deepest. -/
theorem topmost_nearest? (hp : p.WellFormed) {depth : Nat}
    (hdeeper : ∀ k, depth < k → p.dispatchAt? k = none) : p.Topmost (p.nearest? depth) := by
  cases hnearest : p.nearest? depth with
  | none =>
      -- no slot is at depth zero, so one that is in reach would have been found
      intro k
      rcases Nat.lt_or_ge depth k with hlt | hle
      · exact hdeeper k hlt
      cases hslot : p.dispatchAt? k with
      | none => rfl
      | some fn =>
          have hk := Nat.pos_of_ne_zero (hp.slot hslot).2.1
          rw [nearest?_eq_none hnearest hk hle] at hslot
          cases hslot
  | some fn =>
      obtain ⟨k, _, _, hslot, hbetween⟩ := nearest?_spec hnearest
      obtain rfl := (hp.slot hslot).1
      refine ⟨hslot, fun j hj => ?_⟩
      rcases Nat.lt_or_ge depth j with hlt | hle
      · exact hdeeper j hlt
      · exact hbetween j hj hle

/-- The deepest slot is at the last active depth. -/
theorem Topmost.eq_getLast? (h : p.Topmost fn?) :
    fn? = p.activeDepths.getLast?.bind p.dispatchAt? := by
  cases fn? with
  | none => rw [activeDepths_eq_nil h, List.getLast?_nil, Option.bind_none]
  | some fn =>
      obtain ⟨hslot, hdeeper⟩ := h
      have hmem : fn.depth ∈ p.activeDepths := mem_activeDepths.2 (by simp [hslot])
      obtain ⟨last, hlast⟩ := Option.isSome_iff_exists.1 (List.getLast?_isSome.2
        (List.ne_nil_of_mem hmem))
      -- the active depths are listed in order, so the last is no shallower
      have hle : fn.depth ≤ last := by
        obtain ⟨init, hinit⟩ := List.getLast?_eq_some_iff.1 hlast
        have hsorted := p.activeDepths_pairwise
        rw [hinit] at hsorted hmem
        rcases List.mem_append.1 hmem with hinit | hsame
        · exact Nat.le_of_lt ((List.pairwise_append.1 hsorted).2.2 _ hinit _ (by simp))
        · exact Nat.le_of_eq (List.mem_singleton.1 hsame)
      have hactive := mem_activeDepths.1 (List.mem_of_getLast? hlast)
      -- and a deeper one would be pending below the deepest slot
      have heq : last = fn.depth := by
        by_contra hne
        rw [hdeeper last (by omega)] at hactive
        cases hactive
      rw [hlast, heq, Option.bind_some, hslot]

theorem Topmost.eq_none_iff (h : p.Topmost fn?) : fn? = none ↔ p.isEmpty := by
  rw [isEmpty_iff]
  cases fn? with
  | none => exact ⟨fun _ => h, fun _ => rfl⟩
  | some fn =>
      refine ⟨fun hnone => (by cases hnone), fun hempty => ?_⟩
      rw [h.1.symm.trans (hempty _)]

end Pending

namespace Scene

variable (site : Site σ) (place : σ) {scene : Scene B}

/-! ## The bound function has its slot -/

/-- The bound function is held by the slot of its depth. -/
structure Backed (scene : Scene B) : Prop where
  wellFormed : scene.deferral.pending.WellFormed
  slot : ∀ {fn}, scene.bound = some fn → scene.deferral.pending.dispatchAt? fn.depth = some fn

theorem Backed.perform (h : scene.Backed) (operation : Operation B) :
    (scene.perform site place operation).2.Backed := by
  refine ⟨scene.perform_wellFormed site place h.wellFormed operation, fun {fn} hbound => ?_⟩
  cases operation with
  | defer hook =>
      rcases scene.perform_defer site place hook with
        ⟨e, hrun⟩ | ⟨hdepth, ⟨joined, hslot, hrun⟩ | ⟨hslot, hrun⟩⟩
      · rw [hrun] at hbound ⊢
        exact h.slot hbound
      · rw [hrun] at hbound ⊢
        simp only [Pending.add_join hook hdepth hslot]
        exact h.slot hbound
      · rw [hrun] at hbound ⊢
        obtain rfl := Option.some.inj hbound
        simp [Pending.dispatchAt?_add_open hook hdepth hslot]
  | splice text =>
      rcases scene.perform_splice site place text with ⟨e, hrun⟩ | hrun <;>
      · rw [hrun] at hbound ⊢
        exact h.slot hbound
  | clear depth =>
      rcases scene.perform_clear site place depth with ⟨-, hrun⟩ | ⟨-, hrun⟩
      · rw [hrun] at hbound ⊢
        exact h.slot hbound
      · rw [hrun] at hbound ⊢
        exact (h.wellFormed.clear depth).nearest? hbound
  | unwindTo depth =>
      rcases scene.perform_unwindTo site place depth with ⟨hnone, hrun⟩ | hrun
      · rw [hrun] at hbound ⊢
        rw [Pending.dispatchAt?_unwindTo_zero hnone]
        exact h.slot hbound
      · rw [hrun] at hbound ⊢
        exact (h.wellFormed.unwindTo depth).nearest? hbound

theorem Backed.performAll (h : scene.Backed) (steps : List (σ × Operation B)) :
    (scene.performAll site steps).2.Backed := by
  induction steps generalizing scene with
  | nil => exact h
  | cons step steps ih => exact ih (h.perform site step.1 step.2)

theorem backed_start (mode : InjectionMode) : (start mode : Scene B).Backed :=
  ⟨.empty, fun h => nomatch h⟩

/-! ## Nested operations -/

/-- Hooks are put off, and depths cleared, no shallower than any slot. -/
def Nested (site : Site σ) : Scene B → List (σ × Operation B) → Prop
  | _, [] => True
  | scene, (place, operation) :: steps =>
    (∀ depth ∈ operation.depth? site place, ∀ k ∈ scene.deferral.pending.activeDepths, k ≤ depth) ∧
      Nested site (scene.perform site place operation).2 steps

/-- A nested operation leaves the name bound to the function of the deepest slot. -/
theorem perform_topmost (hscene : scene.deferral.pending.WellFormed)
    (h : scene.deferral.pending.Topmost scene.bound) (operation : Operation B)
    (hnested : ∀ depth ∈ operation.depth? site place,
      ∀ k ∈ scene.deferral.pending.activeDepths, k ≤ depth) :
    (scene.perform site place operation).2.deferral.pending.Topmost
      (scene.perform site place operation).2.bound := by
  -- the slots in reach of a nested operation are no deeper than it
  have hdeeper : ∀ depth ∈ operation.depth? site place, ∀ k, depth < k →
      scene.deferral.pending.dispatchAt? k = none := fun depth hdepth k hk => by
    cases hslot : scene.deferral.pending.dispatchAt? k with
    | none => rfl
    | some fn =>
        have hle := hnested depth hdepth k (Pending.mem_activeDepths.2 (by simp [hslot]))
        omega
  cases operation with
  | defer hook =>
      rcases scene.perform_defer site place hook with
        ⟨e, hrun⟩ | ⟨hdepth, ⟨joined, hslot, hrun⟩ | ⟨hslot, hrun⟩⟩
      · rwa [hrun]
      · rw [hrun]
        exact h.congr fun k => by simp only [Pending.add_join hook hdepth hslot]; rfl
      · rw [hrun]
        -- the slot that is opened is deeper than all that were pending
        have hat := Pending.dispatchAt?_add_open hook hdepth hslot
        refine ⟨by simp [hat], fun k hk => ?_⟩
        simp only [hat, Nat.ne_of_gt hk, if_false]
        exact hdeeper _ rfl k hk
  | splice text =>
      rcases scene.perform_splice site place text with ⟨e, hrun⟩ | hrun <;> rwa [hrun]
  | clear depth =>
      rcases scene.perform_clear site place depth with ⟨-, hrun⟩ | ⟨-, hrun⟩
      · rwa [hrun]
      · rw [hrun]
        refine Pending.topmost_nearest? (hscene.clear depth) fun k hk => ?_
        rw [Pending.dispatchAt?_clear]
        split
        · rfl
        · exact hdeeper depth rfl k (by omega)
  | unwindTo depth =>
      rcases scene.perform_unwindTo site place depth with ⟨hnone, hrun⟩ | hrun
      · rw [hrun]
        exact h.congr (Pending.dispatchAt?_unwindTo_zero hnone)
      · rw [hrun]
        refine Pending.topmost_nearest? (hscene.unwindTo depth) fun k hk => ?_
        rw [Pending.dispatchAt?_unwindTo, if_neg (by omega)]

theorem performAll_topmost (hscene : scene.deferral.pending.WellFormed)
    (h : scene.deferral.pending.Topmost scene.bound) (steps : List (σ × Operation B))
    (hnested : scene.Nested site steps) :
    (scene.performAll site steps).2.deferral.pending.Topmost
      (scene.performAll site steps).2.bound := by
  induction steps generalizing scene with
  | nil => exact h
  | cons step steps ih =>
      -- by induction on the steps: each is nested in the scene that the ones before it leave
      obtain ⟨place, operation⟩ := step
      obtain ⟨hfirst, hrest⟩ := hnested
      exact ih (scene.perform_wellFormed site place hscene operation)
        (perform_topmost site place hscene h operation hfirst) hrest

/-! ## The main statement -/

/-- From the start, whatever the operations and the places they find the site at: a bound function
is that of the slot of its depth.  If the operations are nested, it is that of the deepest slot, and
no function is bound exactly when nothing is pending. -/
theorem binding_follows_slots (site : Site σ) (mode : InjectionMode)
    (steps : List (σ × Operation B)) :
    let scene := ((start mode).performAll site steps).2
    let pending := scene.deferral.pending
    (∀ fn, scene.bound = some fn → pending.dispatchAt? fn.depth = some fn) ∧
    ((start mode).Nested site steps →
      scene.bound = pending.activeDepths.getLast?.bind pending.dispatchAt? ∧
      (scene.bound = none ↔ pending.isEmpty)) := by
  intro scene pending
  refine ⟨fun fn => ((backed_start mode).performAll site steps).slot, fun hnested => ?_⟩
  have hstart : (Pending.empty : Pending B).Topmost none := fun k => rfl
  have htopmost : pending.Topmost scene.bound :=
    performAll_topmost site .empty hstart steps hnested
  exact ⟨htopmost.eq_getLast?, htopmost.eq_none_iff⟩

end Scene

end TwoPhase
