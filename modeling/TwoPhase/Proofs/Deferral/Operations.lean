import TwoPhase.Deferral.Basic
import TwoPhase.Proofs.Deferral.Slots

/-!
# Operations under watch

A deferral acts on its site through three requests: to splice text in, to bind the dispatch name to
a new function, and to bind it back.  A watched site notes these requests as it passes them on, so
one can say what an operation asked for, and to which function the name is bound.  Any site can be
watched, and watching changes nothing (`defer_watched` and its like).

An operation may find the site at any place, that is, at any depth, inside an evaluated string or
not, ready to splice text in or refusing to.  A run is therefore a list of operations, each with the
place where it is performed.
-/

namespace TwoPhase

variable {B σ : Type}

/-! ## Watching a site -/

/-- A request that a site has carried out. -/
inductive Effect where
  | injected (mode : InjectionMode) (text : String)
  | bound (fn : DispatchFn)
  | unboundTo (parent : Option DispatchFn)
  deriving DecidableEq, Inhabited, Repr

/-- A place, with the function that the dispatch name is bound to and the requests carried out. -/
structure Watched (σ : Type) where
  place : σ
  bound : Option DispatchFn
  effects : List Effect

/-- A site that notes what it is asked for.  Text that is refused goes nowhere, and is not noted. -/
def Site.watched (site : Site σ) : Site (Watched σ) where
  depth w := site.depth w.place
  inStringEval w := site.inStringEval w.place
  bind fn w := ⟨site.bind fn w.place, some fn, w.effects ++ [.bound fn]⟩
  unbindTo parent w := ⟨site.unbindTo parent w.place, parent, w.effects ++ [.unboundTo parent]⟩
  inject mode text w :=
    match site.inject mode text w.place with
    | (.error e, place) => (.error e, { w with place })
    | (.ok (), place) => (.ok (), ⟨place, w.bound, w.effects ++ [.injected mode text]⟩)

namespace Deferral

/-- Watching does not change what putting a hook off does. -/
theorem defer_watched (site : Site σ) (hook : Hook B) (d : Deferral B) (w : Watched σ) :
    let (result, next, after) := d.defer site.watched hook w
    d.defer site hook w.place = (result, next, after.place) := by
  by_cases hdepth : site.depth w.place = 0
  · simp [defer, Site.watched, hdepth]
  by_cases hstring : site.inStringEval w.place = true
  · simp [defer, Site.watched, hdepth, hstring]
  by_cases hslot : d.pending.hasSlot (site.depth w.place) = true
  · simp [defer, Site.watched, hdepth, hstring, hslot]
  simp only [defer, Site.watched, hdepth, hstring, hslot, if_false, Bool.false_eq_true]
  -- only where the hook opens a slot does the site get asked
  cases site.inject d.mode (dispatchFragment (site.depth w.place)) w.place with
  | mk result place =>
      cases result with
      | error e => rfl
      | ok =>
          cases (d.pending.add (site.depth w.place) hook).1 with
          | error e => rfl
          | ok added => cases added <;> rfl

theorem splice_watched (site : Site σ) (text : String) (d : Deferral B) (w : Watched σ) :
    let (result, after) := d.splice site.watched text w
    d.splice site text w.place = (result, after.place) := by
  simp only [splice, Site.watched]
  cases site.inject d.mode text w.place with
  | mk result place => cases result <;> rfl

theorem clear_watched (site : Site σ) (depth : Nat) (d : Deferral B) (w : Watched σ) :
    let (result, next, after) := d.clear site.watched depth w
    d.clear site depth w.place = (result, next, after.place) := by
  simp only [clear, Site.watched]
  cases d.pending.clear depth with
  | mk result pending => cases result <;> rfl

theorem unwindTo_watched (site : Site σ) (depth : Nat) (d : Deferral B) (w : Watched σ) :
    let (next, after) := d.unwindTo site.watched depth w
    d.unwindTo site depth w.place = (next, after.place) := by
  by_cases hnone : (d.pending.unwindTo depth).1 = 0 <;> simp [unwindTo, Site.watched, hnone]

end Deferral

/-! ## Performing operations -/

/-- An operation of a deferral. -/
inductive Operation (B : Type) where
  | defer (hook : Hook B)
  | splice (text : String)
  | clear (depth : Nat)
  | unwindTo (depth : Nat)
  deriving DecidableEq, Inhabited, Repr

/-- The depth that putting a hook off or clearing is about. -/
def Operation.depth? (site : Site σ) (place : σ) : Operation B → Option Nat
  | defer _ => some (site.depth place)
  | splice _ => none
  | clear depth => some depth
  | unwindTo _ => none

inductive Outcome where
  | deferred (result : Except HookError Pending.Added)
  | spliced (result : Except HookError Unit)
  | cleared (result : Except HookError Unit)
  | unwound

/-- Whether an operation was refused. -/
def Outcome.failed : Outcome → Bool
  | deferred (.error _) => true
  | spliced (.error _) => true
  | cleared (.error _) => true
  | _ => false

/-- What an operation came to, and what it asked of the site. -/
structure Report (B : Type) where
  operation : Operation B
  outcome : Outcome
  effects : List Effect

/-- A deferral, and the function that the dispatch name is bound to. -/
structure Scene (B : Type) where
  deferral : Deferral B
  bound : Option DispatchFn

namespace Scene

/-- Nothing is pending, and the dispatch name is not bound. -/
def start (mode : InjectionMode) : Scene B := ⟨.new mode, none⟩

/-- An operation at a place of a site. -/
def perform (site : Site σ) (place : σ) (scene : Scene B) (operation : Operation B) :
    Report B × Scene B :=
  let w : Watched σ := ⟨place, scene.bound, []⟩
  match operation with
  | .defer hook =>
    let (result, deferral, w) := scene.deferral.defer site.watched hook w
    (⟨operation, .deferred result, w.effects⟩, ⟨deferral, w.bound⟩)
  | .splice text =>
    let (result, w) := scene.deferral.splice site.watched text w
    (⟨operation, .spliced result, w.effects⟩, ⟨scene.deferral, w.bound⟩)
  | .clear depth =>
    let (result, deferral, w) := scene.deferral.clear site.watched depth w
    (⟨operation, .cleared result, w.effects⟩, ⟨deferral, w.bound⟩)
  | .unwindTo depth =>
    let (deferral, w) := scene.deferral.unwindTo site.watched depth w
    (⟨operation, .unwound, w.effects⟩, ⟨deferral, w.bound⟩)

/-- Operations performed in turn, each at a place of its own. -/
def performAll (site : Site σ) (scene : Scene B) : List (σ × Operation B) →
    List (Report B) × Scene B
  | [] => ([], scene)
  | (place, operation) :: steps =>
    let (report, scene) := scene.perform site place operation
    let (reports, scene) := scene.performAll site steps
    (report :: reports, scene)

variable (site : Site σ) (place : σ) (scene : Scene B)

@[simp] theorem performAll_nil : scene.performAll site [] = ([], scene) := rfl

@[simp] theorem performAll_cons (operation : Operation B) (steps : List (σ × Operation B)) :
    scene.performAll site ((place, operation) :: steps) =
      ((scene.perform site place operation).1 ::
        ((scene.perform site place operation).2.performAll site steps).1,
        ((scene.perform site place operation).2.performAll site steps).2) := rfl

/-! ## What each operation does -/

/-- Putting a hook off: it is refused, or joins the slot of the depth, or opens one.  Only the last
asks anything of the site: to splice the dispatch call in, then to bind the new function. -/
theorem perform_defer (hook : Hook B) :
    (∃ e, scene.perform site place (.defer hook)
      = (⟨.defer hook, .deferred (.error e), []⟩, scene)) ∨
    site.depth place ≠ 0 ∧
      ((∃ fn, scene.deferral.pending.dispatchAt? (site.depth place) = some fn ∧
        scene.perform site place (.defer hook) = (⟨.defer hook, .deferred (.ok .joined), []⟩,
          ⟨⟨(scene.deferral.pending.add (site.depth place) hook).2, scene.deferral.mode⟩,
            scene.bound⟩)) ∨
      (scene.deferral.pending.dispatchAt? (site.depth place) = none ∧
        let fn : DispatchFn := ⟨scene.deferral.pending.lists.size, site.depth place⟩
        scene.perform site place (.defer hook) = (⟨.defer hook, .deferred (.ok (.opened fn)),
            [.injected scene.deferral.mode (dispatchFragment (site.depth place)), .bound fn]⟩,
          ⟨⟨(scene.deferral.pending.add (site.depth place) hook).2, scene.deferral.mode⟩,
            some fn⟩))) := by
  obtain ⟨⟨pending, mode⟩, bound⟩ := scene
  by_cases hdepth : site.depth place = 0
  · exact .inl ⟨.notConstructing, by simp [perform, Deferral.defer, Site.watched, hdepth]⟩
  by_cases hstring : site.inStringEval place = true
  · exact .inl ⟨.stringEval, by simp [perform, Deferral.defer, Site.watched, hdepth, hstring]⟩
  cases hslot : pending.dispatchAt? (site.depth place) with
  | some fn =>
      refine .inr ⟨hdepth, .inl ⟨fn, rfl, ?_⟩⟩
      have hhas : pending.hasSlot (site.depth place) = true := by simp [Pending.hasSlot, hslot]
      simp [perform, Deferral.defer, Site.watched, hdepth, hstring, hhas,
        Pending.add_join hook hdepth hslot]
  | none =>
      have hhas : pending.hasSlot (site.depth place) = false := by simp [Pending.hasSlot, hslot]
      -- the call is spliced in before the slot is opened, so a refusal leaves no slot behind
      have hadd := Pending.add_open hook hdepth hslot
      cases hinject : site.inject mode (dispatchFragment (site.depth place)) place with
      | mk result place' =>
          cases result with
          | error e =>
              refine .inl ⟨.inject e, ?_⟩
              simp [perform, Deferral.defer, Site.watched, hdepth, hstring, hhas, hinject]
          | ok =>
              refine .inr ⟨hdepth, .inr ⟨rfl, ?_⟩⟩
              simp [perform, Deferral.defer, Site.watched, hdepth, hstring, hhas, hinject, hadd]

/-- Splicing text in touches neither the pending hooks nor the binding. -/
theorem perform_splice (text : String) :
    (∃ e, scene.perform site place (.splice text)
      = (⟨.splice text, .spliced (.error e), []⟩, scene)) ∨
    scene.perform site place (.splice text)
      = (⟨.splice text, .spliced (.ok ()), [.injected scene.deferral.mode text]⟩, scene) := by
  simp only [perform, Deferral.splice, Site.watched]
  cases site.inject scene.deferral.mode text place with
  | mk result place' =>
      cases result with
      | error e => exact .inl ⟨_, rfl⟩
      | ok => exact .inr rfl

/-- Clearing a depth: it is refused, or the slot goes and the name is bound to the function of the
nearest shallower one. -/
theorem perform_clear (depth : Nat) :
    (scene.deferral.pending.dispatchAt? depth = none ∧
      scene.perform site place (.clear depth)
        = (⟨.clear depth, .cleared (.error (.noSlot depth)), []⟩, scene)) ∨
    (scene.deferral.pending.dispatchAt? depth).isSome ∧
      let cleared := (scene.deferral.pending.clear depth).2
      scene.perform site place (.clear depth)
        = (⟨.clear depth, .cleared (.ok ()), [.unboundTo (cleared.nearest? (depth - 1))]⟩,
          ⟨⟨cleared, scene.deferral.mode⟩, cleared.nearest? (depth - 1)⟩) := by
  simp only [perform, Deferral.clear, Site.watched]
  cases hslot : scene.deferral.pending.dispatchAt? depth with
  | none =>
      rw [Pending.clear_of_none hslot]
      exact .inl ⟨rfl, rfl⟩
  | some fn =>
      rw [Pending.clear_eq hslot]
      exact .inr ⟨rfl, rfl⟩

/-- Unwinding: the deeper slots go, and if there were any, the name is bound to the function of the
deepest slot that is left. -/
theorem perform_unwindTo (depth : Nat) :
    let unwound := (scene.deferral.pending.unwindTo depth).2
    ((scene.deferral.pending.unwindTo depth).1 = 0 ∧
      scene.perform site place (.unwindTo depth)
        = (⟨.unwindTo depth, .unwound, []⟩, ⟨⟨unwound, scene.deferral.mode⟩, scene.bound⟩)) ∨
    scene.perform site place (.unwindTo depth)
      = (⟨.unwindTo depth, .unwound, [.unboundTo (unwound.nearest? depth)]⟩,
        ⟨⟨unwound, scene.deferral.mode⟩, unwound.nearest? depth⟩) := by
  by_cases hnone : (scene.deferral.pending.unwindTo depth).1 = 0
  · exact .inl ⟨hnone, by simp [perform, Deferral.unwindTo, hnone]⟩
  · exact .inr (by simp [perform, Deferral.unwindTo, Site.watched, hnone])

@[simp] theorem perform_operation (operation : Operation B) :
    (scene.perform site place operation).1.operation = operation := by
  cases operation <;> rfl

/-- Every operation keeps slots and lists fitting together. -/
theorem perform_wellFormed (hscene : scene.deferral.pending.WellFormed) (operation : Operation B) :
    (scene.perform site place operation).2.deferral.pending.WellFormed := by
  cases operation with
  | defer hook =>
      rcases scene.perform_defer site place hook with
        ⟨e, hrun⟩ | ⟨hdepth, ⟨fn, hslot, hrun⟩ | ⟨hslot, hrun⟩⟩
      · rwa [hrun]
      · rw [hrun]
        exact hscene.add_join hook hdepth hslot
      · rw [hrun]
        exact hscene.add_open hook hdepth hslot
  | splice text => rcases scene.perform_splice site place text with ⟨e, hrun⟩ | hrun <;> rwa [hrun]
  | clear depth =>
      rcases scene.perform_clear site place depth with ⟨-, hrun⟩ | ⟨-, hrun⟩
      · rwa [hrun]
      · rw [hrun]
        exact hscene.clear depth
  | unwindTo depth =>
      rcases scene.perform_unwindTo site place depth with ⟨-, hrun⟩ | hrun <;>
      · rw [hrun]
        exact hscene.unwindTo depth

end Scene

end TwoPhase
