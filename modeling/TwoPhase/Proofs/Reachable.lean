import TwoPhase.Session
import TwoPhase.Proofs.Interpreter.Within

/-!
# Reachable states

A state is reachable if the steps of some session lead to its core.  Every operation of a session
keeps to reachable states, and so does all that happens in the middle of one: what code does between
two states (`Within`) and what the parser does with its host (`Hosting`).
-/

namespace TwoPhase

open Interpreter
open Run (Triple Keeps)

variable {s t : State}

/-- A state that a session can be in, at any point of its runs. -/
def Reachable (s : State) : Prop :=
  ∃ settings, Core.Steps 0 0 (Session.start settings).core s.core

namespace Reachable

/-! ## Soundness -/

theorem nativeGlobals_named (probes : Bool) : (State.nativeGlobals probes).Named := by
  have hfold : ∀ (natives : List Native) (g : Globals), g.Named →
      (natives.foldl
        (fun g native => g.bindFresh native.name (some (.native native))) g).Named := by
    intro natives
    induction natives with
    | nil => exact fun _ hg => hg
    | cons native natives ih => exact fun g hg => ih _ (hg.bindFresh _ _)
  exact hfold _ _ .empty

/-- A session starts with a sound core. -/
theorem start_sound (settings : Settings) : (Session.start settings).core.Sound where
  named := nativeGlobals_named settings.probes
  pending := .empty
  dispatch := by
    have hnone : (State.nativeGlobals settings.probes).lookup? dispatchName = none := by
      cases settings.probes <;> rfl
    intro _ value hvalue
    have hvalue : (State.nativeGlobals settings.probes).lookup? dispatchName = some value := hvalue
    rw [hnone] at hvalue
    cases hvalue
  clearing := by
    intro _
    have hclear : (State.nativeGlobals settings.probes).lookup? clearName
        = some (.native (.builtin .clear)) := by
      cases settings.probes <;> rfl
    exact hclear

theorem sound (h : Reachable s) : s.core.Sound := by
  obtain ⟨settings, hsteps⟩ := h
  exact (start_sound settings).steps hsteps

/-! ## Closure -/

theorem start (settings : Settings) : Reachable (Session.start settings) := ⟨settings, .refl⟩

theorem steps (h : Reachable s) {floor least : Nat}
    (hsteps : Core.Steps floor least s.core t.core) :
    Reachable t := by
  obtain ⟨settings, hstart⟩ := h
  exact ⟨settings, hstart.trans (hsteps.mono (Nat.zero_le _) (Nat.zero_le _))⟩

theorem within (h : Reachable s) (hwithin : Within s t) : Reachable t := h.steps hwithin.core

theorem around (h : Reachable s) (haround : Around s t) : Reachable t := h.steps haround.core

theorem hosting (h : Reachable s) (hhosting : Hosting s t) : Reachable t := h.steps hhosting.core

theorem alike (h : Reachable s) (halike : s.Alike t) : Reachable t := h.within halike.within

theorem stable : Stable Reachable := ⟨alike⟩

variable {α : Type} {bound : Nat}

/-- Running code leads to reachable states only. -/
theorem run (work : Work α) : Keeps Reachable (Interpreter.run bound work) := by
  intro s hs
  exact (run_within bound s work).weaken (fun _ ht => ht) (fun _ _ => hs.within)
    (fun _ _ => hs.within) s (.refl s)

/-- Constructing a unit leads to reachable states only, whether it succeeds or not. -/
theorem construct (name : String) (origin : UnitOrigin) (path : Option String) (source : String) :
    Keeps Reachable (construct bound (Interpreter.run bound) name origin path source) := by
  intro s hs
  exact (run_construct bound s name origin path source).weaken (fun _ ht => ht)
    (fun _ _ => hs.around)
    (fun _ _ => hs.around) s rfl

/-- What the operations of running code do, they do to reachable states. -/
theorem respects : Respects bound (Interpreter.run bound) Reachable where
  toStable := stable
  nested work := run work
  write cell value hs := hs.within ⟨rfl, rfl, .refl _, .single (.set _ cell value)⟩
  defer callable after s hs :=
    (defer_within callable after).weaken (fun _ ht => ht) (fun _ _ => hs.within)
      (fun _ _ => hs.within) s (.refl s)
  splice text s hs :=
    (lexStuff_within text).weaken (fun _ ht => ht) (fun _ _ => hs.within) (fun _ _ => hs.within) s
      (.refl s)
  clear depth s hs :=
    (clearDepth_within depth).weaken (fun _ ht => ht) (fun _ _ => hs.within) (fun _ _ => hs.within)
      s (.refl s)
  construct := construct

/-! ## The operations of a session -/

theorem compile (source : String) (name path : Option String) :
    Keeps Reachable (Session.compile bound source name path) :=
  fun s hs => construct (name.getD s.mainUnit) .main path source s hs

theorem execute (unit : CompiledUnit) : Keeps Reachable (Session.execute bound unit) :=
  respects.execute unit

theorem runSource (source : String) : Keeps Reachable (Session.runSource bound source) :=
  ((compile source none none).mapError _).bind fun unit => (execute unit).mapError _

theorem addModule (h : Reachable s) (name source : String) :
    Reachable (Session.addModule name source s) :=
  h.alike rfl

theorem call (callee : Value) (args : List Value) :
    Keeps Reachable (Session.call bound callee args) :=
  respects.callValue callee args _

theorem defer (callable : Value) (after : Bool) :
    Keeps Reachable (Interpreter.defer callable after) :=
  (@respects 0).defer callable after

theorem lexStuff (text : String) : Keeps Reachable (Session.lexStuff text) :=
  (@respects 0).splice text

theorem takeWarnings (h : Reachable s) : Reachable (Session.takeWarnings s).2 :=
  h.alike rfl

theorem takeOutput (h : Reachable s) : Reachable (Session.takeOutput s).2 :=
  h.alike rfl

end Reachable

end TwoPhase
