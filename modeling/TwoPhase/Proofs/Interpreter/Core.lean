import Mathlib.Logic.Relation
import TwoPhase.Interpreter.Construct
import TwoPhase.Proofs.Globals
import TwoPhase.Proofs.Deferral.Slots

/-!
# The core of a state

Deferral reads and writes the globals, the pending hooks and the record of what was done.  These
three are the core of a state.  Whatever a program does, its core changes in a handful of steps.

A step may open or join a slot at the depth of the code that takes it, and at deeper ones by way of
the units that the code constructs, but at no shallower one.  A unit that such code constructs opens
slots one deeper only, and where it fails, goes back to the depth of the code.  So
`Steps floor least` open slots from depth `floor` on, and unwind to depth `least` or deeper ones.
-/

namespace TwoPhase.Interpreter

open Relation (ReflTransGen)

/-- The part of a state that deferral works on. -/
structure Core where
  globals : Globals
  pending : Pending DeferredBlock
  history : List Event

def State.core (s : State) : Core := ⟨s.globals, s.deferral.pending, s.history⟩

/-- Globals with the dispatch name bound to a function, or to nothing. -/
def dispatchTo (g : Globals) : Option DispatchFn → Globals
  | some fn => g.bindFresh dispatchName (some (.dispatch fn))
  | none => (g.remove dispatchName).2

namespace Core

/-- What code may do to the core. -/
inductive Step (floor least : Nat) : Core → Core → Prop where
  | ensure (c : Core) (name : String) :
      Step floor least c { c with globals := c.globals.ensure name }
  | set (c : Core) (cell : CellRef) (value : Value) :
      Step floor least c { c with globals := c.globals.set cell value }
  | opened (c : Core) (depth : Nat) (hook : Hook DeferredBlock) (hfloor : floor ≤ depth)
      (hdepth : depth ≠ 0) (hslot : c.pending.dispatchAt? depth = none) :
      Step floor least c
        ⟨dispatchTo c.globals (some ⟨c.pending.lists.size, depth⟩), (c.pending.add depth hook).2,
          .deferred depth hook :: c.history⟩
  | joined (c : Core) (depth : Nat) (hook : Hook DeferredBlock) (fn : DispatchFn)
      (hfloor : floor ≤ depth) (hdepth : depth ≠ 0)
      (hslot : c.pending.dispatchAt? depth = some fn) :
      Step floor least c
        ⟨c.globals, (c.pending.add depth hook).2, .deferred depth hook :: c.history⟩
  | spliced (c : Core) (text : String) (pending : Bool) :
      Step floor least c { c with history := .spliced text pending :: c.history }
  | cleared (c : Core) (depth : Nat) (fn : DispatchFn)
      (hslot : c.pending.dispatchAt? depth = some fn) :
      Step floor least c
        ⟨dispatchTo c.globals ((c.pending.clear depth).2.nearest? (depth - 1)),
          (c.pending.clear depth).2, .cleared depth :: c.history⟩
  | unwound (c : Core) (depth : Nat) (hleast : least ≤ depth)
      (hsome : (c.pending.unwindTo depth).1 ≠ 0) :
      Step floor least c
        ⟨dispatchTo c.globals ((c.pending.unwindTo depth).2.nearest? depth),
          (c.pending.unwindTo depth).2, .unwound depth :: c.history⟩
  /-- Unwinding where there is nothing to unwind. -/
  | trimmed (c : Core) (depth : Nat) (hleast : least ≤ depth)
      (hnone : (c.pending.unwindTo depth).1 = 0) :
      Step floor least c ⟨c.globals, (c.pending.unwindTo depth).2, .unwound depth :: c.history⟩

/-- What code may do to the core in any number of steps. -/
abbrev Steps (floor least : Nat) : Core → Core → Prop := ReflTransGen (Step floor least)

variable {floor floor' least least' : Nat} {c c' : Core}

/-- Deeper code may do less. -/
theorem Step.mono (hfloor : floor ≤ floor') (hleast : least ≤ least')
    (h : Step floor' least' c c') : Step floor least c c' := by
  cases h with
  | ensure name => exact .ensure c name
  | set cell value => exact .set c cell value
  | opened depth hook hdeep hdepth hslot => exact .opened c depth hook (by omega) hdepth hslot
  | joined depth hook fn hdeep hdepth hslot =>
      exact .joined c depth hook fn (by omega) hdepth hslot
  | spliced text pending => exact .spliced c text pending
  | cleared depth fn hslot => exact .cleared c depth fn hslot
  | unwound depth hdeep hsome => exact .unwound c depth (by omega) hsome
  | trimmed depth hdeep hnone => exact .trimmed c depth (by omega) hnone

theorem Steps.mono (hfloor : floor ≤ floor') (hleast : least ≤ least')
    (h : Steps floor' least' c c') : Steps floor least c c' := by
  induction h with
  | refl => exact .refl
  | tail _ hstep ih => exact ih.tail (hstep.mono hfloor hleast)

/-- No step forgets what was done before. -/
theorem Step.suffix (h : Step floor least c c') :
    c.history <:+ c'.history := by
  cases h <;> first | exact List.suffix_rfl | exact List.suffix_cons _ _

theorem Steps.suffix (h : Steps floor least c c') :
    c.history <:+ c'.history := by
  induction h with
  | refl => exact List.suffix_rfl
  | tail _ hstep ih => exact ih.trans hstep.suffix

/-- No step takes a hook from a list. -/
theorem Step.hooks (h : Step floor least c c') (fn : DispatchFn) :
    (c.pending.hooks fn).toList <+: (c'.pending.hooks fn).toList := by
  have hkept : ∀ {p : Pending DeferredBlock}, p.lists = c.pending.lists →
      (c.pending.hooks fn).toList <+: (p.hooks fn).toList := fun {p} hlists => by
    have hsame : p.hooks fn = c.pending.hooks fn := by rw [Pending.hooks, Pending.hooks, hlists]
    exact hsame ▸ List.prefix_rfl
  cases h with
  | opened depth hook => exact c.pending.hooks_add_prefix depth hook fn
  | joined depth hook => exact c.pending.hooks_add_prefix depth hook fn
  | cleared depth => exact hkept (c.pending.lists_clear depth)
  | unwound depth => exact hkept (c.pending.lists_unwindTo depth)
  | trimmed depth => exact hkept (c.pending.lists_unwindTo depth)
  | _ => exact List.prefix_rfl

theorem Steps.hooks (h : Steps floor least c c') (fn : DispatchFn) :
    (c.pending.hooks fn).toList <+: (c'.pending.hooks fn).toList := by
  induction h with
  | refl => exact List.prefix_rfl
  | tail _ hstep ih => exact ih.trans (hstep.hooks fn)

/-- A name that is untouched now was untouched before. -/
theorem Step.untouched {name : String} (h : Step floor least c c')
    (hafter : c'.globals.Untouched name) : c.globals.Untouched name := by
  have hdispatch : ∀ (target : Option DispatchFn), (dispatchTo c.globals target).Untouched name →
      c.globals.Untouched name := by
    intro target htarget
    cases target with
    | some fn => exact htarget.of_bindFresh
    | none => exact htarget
  cases h with
  | ensure name => exact hafter.of_ensure
  | set cell value => exact hafter.of_set.1
  | opened depth hook hfloor hdepth hslot => exact hdispatch _ hafter
  | joined => exact hafter
  | spliced => exact hafter
  | cleared => exact hdispatch _ hafter
  | unwound => exact hdispatch _ hafter
  | trimmed => exact hafter

theorem Steps.untouched {name : String} (h : Steps floor least c c')
    (hafter : c'.globals.Untouched name) : c.globals.Untouched name := by
  induction h with
  | refl => exact hafter
  | tail _ hstep ih => exact ih (hstep.untouched hafter)

/-! ## Soundness -/

/-- What holds of the core of every state of a session. -/
structure Sound (c : Core) : Prop where
  named : c.globals.Named
  pending : c.pending.WellFormed
  /-- Unless a program writes it, the dispatch name has the function of a pending slot as value, or
  no value at all. -/
  dispatch : c.globals.Untouched dispatchName → ∀ {value},
    c.globals.lookup? dispatchName = some value →
      ∃ fn, value = .dispatch fn ∧ c.pending.dispatchAt? fn.depth = some fn
  /-- Unless a program writes it, the name that the clearing marker calls means the native sub. -/
  clearing : c.globals.Untouched clearName →
    c.globals.lookup? clearName = some (.native (.builtin .clear))

namespace Sound

theorem clearName_ne_dispatchName : clearName ≠ dispatchName := by decide

/-- Binding the dispatch name to a pending slot or to nothing is sound. -/
theorem dispatchTo (h : c.Sound) {p : Pending DeferredBlock} (hp : p.WellFormed)
    {target : Option DispatchFn} {history : List Event}
    (htarget : ∀ fn, target = some fn → p.dispatchAt? fn.depth = some fn) :
    Sound ⟨Interpreter.dispatchTo c.globals target, p, history⟩ := by
  cases target with
  | some fn =>
      refine ⟨h.named.bindFresh _ _, hp, fun _ value hvalue => ?_, fun huntouched => ?_⟩
      · rw [Interpreter.dispatchTo, Globals.lookup?_bindFresh_self] at hvalue
        exact ⟨fn, (Option.some.inj hvalue).symm, htarget fn rfl⟩
      · rw [Interpreter.dispatchTo, Globals.lookup?_bindFresh h.named _ clearName_ne_dispatchName]
        exact h.clearing huntouched.of_bindFresh
  | none =>
      refine ⟨h.named.remove _, hp, fun _ value hvalue => ?_, fun huntouched => ?_⟩
      · simp [Interpreter.dispatchTo] at hvalue
      · rw [Interpreter.dispatchTo, Globals.lookup?_remove clearName_ne_dispatchName]
        exact h.clearing huntouched

/-- One step keeps a core sound. -/
theorem step (h : c.Sound) (hstep : Step floor least c c') : c'.Sound := by
  cases hstep with
  | ensure name =>
      refine ⟨h.named.ensure name, h.pending, fun huntouched value hvalue => ?_,
        fun huntouched => ?_⟩
      · rw [Globals.lookup?_ensure h.named] at hvalue
        exact h.dispatch huntouched.of_ensure hvalue
      · rw [Globals.lookup?_ensure h.named]
        exact h.clearing huntouched.of_ensure
  | set cell value =>
      refine ⟨h.named.set cell value, h.pending, fun huntouched value hvalue => ?_,
        fun huntouched => ?_⟩
      · -- a write that leaves the name untouched is one to a cell of another name
        obtain ⟨hbefore, hother⟩ := huntouched.of_set
        rw [Globals.lookup?_set h.named hother] at hvalue
        exact h.dispatch hbefore hvalue
      · obtain ⟨hbefore, hother⟩ := huntouched.of_set
        rw [Globals.lookup?_set h.named hother]
        exact h.clearing hbefore
  | opened depth hook hfloor hdepth hslot =>
      refine h.dispatchTo (h.pending.add_open hook hdepth hslot) ?_
      rintro fn ⟨⟩
      rw [Pending.dispatchAt?_add_open hook hdepth hslot, if_pos rfl]
  | joined depth hook fn hfloor hdepth hslot =>
      refine ⟨h.named, h.pending.add_join hook hdepth hslot, fun huntouched value hvalue => ?_,
        h.clearing⟩
      obtain ⟨fn, hfn, hat⟩ := h.dispatch huntouched hvalue
      rw [Pending.add_join hook hdepth hslot]
      exact ⟨fn, hfn, hat⟩
  | spliced text pending => exact ⟨h.named, h.pending, h.dispatch, h.clearing⟩
  | cleared depth fn hslot =>
      exact h.dispatchTo (h.pending.clear depth) fun _ => (h.pending.clear depth).nearest?
  | unwound depth hleast hsome =>
      exact h.dispatchTo (h.pending.unwindTo depth) fun _ => (h.pending.unwindTo depth).nearest?
  | trimmed depth hleast hnone =>
      refine ⟨h.named, h.pending.unwindTo depth, fun huntouched value hvalue => ?_, h.clearing⟩
      obtain ⟨fn, hfn, hat⟩ := h.dispatch huntouched hvalue
      exact ⟨fn, hfn, by rw [Pending.dispatchAt?_unwindTo_zero hnone, hat]⟩

/-- Any number of steps keeps a core sound. -/
theorem steps (h : c.Sound) (hsteps : Steps floor least c c') : c'.Sound := by
  induction hsteps with
  | refl => exact h
  | tail _ hstep ih => exact ih.step hstep

end Sound

end Core

end TwoPhase.Interpreter
