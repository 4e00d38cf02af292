import TwoPhase.Proofs.Deferral.Ledger
import TwoPhase.Proofs.Interpreter.History

/-!
# What code puts off

The blocks that code puts off at its own depth gather in one slot, in the order in which they were
put off, and the text that calls them is spliced in once, at the first of them.  The code may
construct further units meanwhile.  These work at deeper depths, and bind the dispatch name to slots
of their own; as these slots go, the name falls back to what is left, but to nothing shallower than
the slot of the code.

All of this is said of code that leaves its depth and its unit alone otherwise: it splices no text
into the unit by hand, and clears no depth but deeper ones (`Core.Calm`).
-/

namespace TwoPhase

/-! ## The hooks of a depth -/

namespace Pending

variable {B : Type} {p : Pending B} {depth : Nat}

/-- The hooks that are pending at a depth. -/
def hooksAt (p : Pending B) (depth : Nat) : List (Hook B) :=
  ((p.dispatchAt? depth).map fun fn => (p.hooks fn).toList).getD []

/-- As long as a slot is not removed, it gets the hooks added at its depth, and no others. -/
theorem hooksAt_perform (hp : p.WellFormed) (hdepth : depth ≠ 0) {command : Command B}
    (hstays : command.removes depth = false) :
    (p.perform command).2.hooksAt depth = p.hooksAt depth ++ (command.hookAt? depth).toList := by
  cases hslot : p.dispatchAt? depth with
  | some fn =>
      obtain ⟨hstill, hhooks⟩ := perform_stays hp hslot hstays
      simp only [hooksAt, hstill, hslot, Option.map_some, Option.getD_some, hhooks]
  | none =>
      cases command with
      | add k hook =>
          by_cases hk : k = depth
          · subst hk
            simp [perform, hooksAt, dispatchAt?_add_open hook hdepth hslot,
              hooks_add_open hook hdepth hslot, hslot, Command.hookAt?]
          · simp [perform, hooksAt, dispatchAt?_add_ne hook (Ne.symm hk), hslot, Command.hookAt?,
              hk]
      | clear k => simp [perform, hooksAt, dispatchAt?_clear, hslot, Command.hookAt?]
      | unwindTo k => simp [perform, hooksAt, dispatchAt?_unwindTo, hslot, Command.hookAt?]

/-- Where a slot is in reach, the nearest one is no shallower. -/
theorem WellFormed.le_nearest? (hp : p.WellFormed) {n : Nat} (hslot : p.dispatchAt? depth ≠ none)
    (hdepth : depth ≠ 0) (hle : depth ≤ n) : ∃ fn, p.nearest? n = some fn ∧ depth ≤ fn.depth := by
  cases hnearest : p.nearest? n with
  | none => exact absurd (nearest?_eq_none hnearest (Nat.pos_of_ne_zero hdepth) hle) hslot
  | some fn =>
      obtain ⟨k, -, hkn, hfn, hbetween⟩ := nearest?_spec hnearest
      refine ⟨fn, rfl, ?_⟩
      rw [(hp.slot hfn).1]
      by_contra hlt
      exact hslot (hbetween depth (by omega) hle)

end Pending

namespace Interpreter

/-! ## Events -/

namespace Event

/-- The command to the pending hooks that an event records. -/
def command? : Event → Option (Pending.Command DeferredBlock)
  | .deferred depth hook => some (.add depth hook)
  | .spliced _ _ => none
  | .cleared depth => some (.clear depth)
  | .unwound depth => some (.unwindTo depth)

/-- The hook that an event put off at a depth. -/
def hookAt? (depth : Nat) : Event → Option (Hook DeferredBlock)
  | .deferred k hook => if k = depth then some hook else none
  | _ => none

theorem hookAt?_eq (depth : Nat) (event : Event) :
    event.hookAt? depth = event.command?.bind (·.hookAt? depth) := by
  cases event <;> rfl

/-- Whether an event left alone the unit that has its blocks at a depth, and the slots up to that
depth: no text was spliced in by hand, and no depth cleared but a deeper one. -/
def leaves (depth : Nat) : Event → Bool
  | .spliced _ _ => false
  | .cleared k => depth < k
  | _ => true

/-- Whether code may do this that opens slots from one depth on, and unwinds to another. -/
def Allowed (floor least : Nat) : Event → Prop
  | .deferred k _ => floor ≤ k
  | .unwound k => least ≤ k
  | _ => True

theorem removes_of_leaves {event : Event} {floor depth : Nat} (hallowed : event.Allowed floor depth)
    (hleaves : event.leaves depth = true) {command : Pending.Command DeferredBlock}
    (hcommand : event.command? = some command) : command.removes depth = false := by
  cases event with
  | deferred k hook =>
      cases hcommand
      rfl
  | spliced text pending => cases hcommand
  | cleared k =>
      cases hcommand
      have hlt : depth < k := of_decide_eq_true hleaves
      simp only [Pending.Command.removes, decide_eq_false_iff_not]
      omega
  | unwound k =>
      cases hcommand
      have hle : depth ≤ k := hallowed
      simp only [Pending.Command.removes, decide_eq_false_iff_not]
      omega

end Event

namespace Core

variable {floor least depth length : Nat} {c c' : Core}

/-- What a step does to the pending hooks is what it records. -/
theorem Step.performed (h : Step floor least c c') :
    (c'.history = c.history ∧ c'.pending = c.pending) ∨
      ∃ event, c'.history = event :: c.history ∧ event.Allowed floor least ∧
        c'.pending = (c.pending.performAll event.command?.toList).2 := by
  cases h with
  | ensure => exact .inl ⟨rfl, rfl⟩
  | set => exact .inl ⟨rfl, rfl⟩
  | opened depth hook hfloor => exact .inr ⟨_, rfl, hfloor, rfl⟩
  | joined depth hook fn hfloor => exact .inr ⟨_, rfl, hfloor, rfl⟩
  | spliced => exact .inr ⟨_, rfl, trivial, rfl⟩
  | cleared => exact .inr ⟨_, rfl, trivial, rfl⟩
  | unwound depth hleast => exact .inr ⟨_, rfl, hleast, rfl⟩
  | trimmed depth hleast => exact .inr ⟨_, rfl, hleast, rfl⟩

/-- Whatever steps do to the pending hooks, commands do in turn. -/
theorem Steps.performed (h : Steps floor least c c') :
    ∃ commands, c'.pending = (c.pending.performAll commands).2 := by
  induction h with
  | refl => exact ⟨[], rfl⟩
  | tail _ hstep ih =>
      obtain ⟨commands, hbefore⟩ := ih
      rcases hstep.performed with ⟨-, hsame⟩ | ⟨event, -, -, hafter⟩
      · exact ⟨commands, hsame.trans hbefore⟩
      · refine ⟨commands ++ event.command?.toList, ?_⟩
        rw [hafter, hbefore, Pending.performAll_append]

/-! ## Slots that are left alone -/

/-- All that was done since the history had some length left alone the unit and the slots of a
depth. -/
def Calm (depth length : Nat) (c : Core) : Prop :=
  ∀ event ∈ c.recent length, event.leaves depth = true

instance : Decidable (c.Calm depth length) :=
  inferInstanceAs (Decidable (∀ event ∈ c.recent length, event.leaves depth = true))

theorem Calm.of_steps (h : Steps floor least c c') (hafter : c'.Calm depth length) :
    c.Calm depth length :=
  fun event hmem => hafter event (h.mem_recent hmem)

theorem Calm.head (hafter : c'.Calm depth length) {event : Event}
    (hhistory : c'.history = event :: c.history) (hlength : length ≤ c.history.length) :
    event.leaves depth = true :=
  hafter event (recent_cons hhistory hlength ▸ List.mem_cons_self)

/-- A slot stays as it is under code that works deeper, unless its depth is cleared. -/
theorem Step.slot_kept (h : Step floor least c c') {k : Nat} (hfloor : k < floor)
    (hleast : k ≤ least)
    (hkept : c'.history ≠ .cleared k :: c.history) :
    c'.pending.dispatchAt? k = c.pending.dispatchAt? k := by
  cases h with
  | ensure => rfl
  | set => rfl
  | opened depth hook hdeep => exact Pending.dispatchAt?_add_ne hook (by omega)
  | joined depth hook fn hdeep => exact Pending.dispatchAt?_add_ne hook (by omega)
  | spliced => rfl
  | cleared depth fn hslot =>
      have hne : k ≠ depth := by
        rintro rfl
        exact hkept rfl
      rw [Pending.dispatchAt?_clear, if_neg hne]
  | unwound depth hdeep hsome => rw [Pending.dispatchAt?_unwindTo, if_pos (by omega)]
  | trimmed depth hdeep hnone => rw [Pending.dispatchAt?_unwindTo_zero hnone]

theorem Steps.slot_kept (h : Steps floor least c c') {k : Nat} (hfloor : k < floor)
    (hleast : k ≤ least) (hlength : length ≤ c.history.length)
    (hkept : .cleared k ∉ c'.recent length) :
    c'.pending.dispatchAt? k = c.pending.dispatchAt? k := by
  induction h with
  | refl => rfl
  | @tail c₁ c₂ hsteps hstep ih =>
      have hbegun : length ≤ c₁.history.length :=
        Nat.le_trans hlength (Steps.suffix hsteps).length_le
      have hlast : c₂.history ≠ .cleared k :: c₁.history := fun hhistory =>
        hkept (recent_cons hhistory hbegun ▸ List.mem_cons_self)
      rw [hstep.slot_kept hfloor hleast hlast]
      exact ih fun hmem => hkept (Steps.mem_recent (.single hstep) hmem)

/-- Code that leaves its depth alone clears neither that depth nor a shallower one. -/
theorem Calm.cleared_notMem (h : c.Calm depth length) {k : Nat} (hk : k ≤ depth) :
    .cleared k ∉ c.recent length := by
  intro hmem
  have hlt : depth < k := of_decide_eq_true (h _ hmem)
  omega

/-! ## What gathers at the depth of the code -/

/-- The hooks that were put off at a depth since the history had some length, in order. -/
def putOff (c : Core) (depth length : Nat) : List (Hook DeferredBlock) :=
  (c.recent length).reverse.filterMap (·.hookAt? depth)

theorem putOff_cons {event : Event} (hhistory : c'.history = event :: c.history)
    (hlength : length ≤ c.history.length) :
    c'.putOff depth length = c.putOff depth length ++ (event.hookAt? depth).toList := by
  rw [putOff, putOff, recent_cons hhistory hlength, List.reverse_cons, List.filterMap_append]
  cases hhook : event.hookAt? depth <;> simp [hhook]

/-- The dispatch name has the function of a depth as its value, or that of a deeper one. -/
def BoundFrom (depth : Nat) (c : Core) : Prop :=
  ∃ fn, c.globals.lookup? dispatchName = some (.dispatch fn) ∧ depth ≤ fn.depth

/-- The hooks put off at a depth are pending there, and the dispatch name has not fallen back behind
them. -/
structure Gathered (depth length : Nat) (c : Core) : Prop where
  begun : length ≤ c.history.length
  hooks : c.pending.hooksAt depth = c.putOff depth length
  bound : c.pending.dispatchAt? depth ≠ none → c.BoundFrom depth

theorem boundFrom_dispatchTo (g : Globals) (p : Pending DeferredBlock) (history : List Event)
    {target : Option DispatchFn} (h : ∃ fn, target = some fn ∧ depth ≤ fn.depth) :
    BoundFrom depth ⟨dispatchTo g target, p, history⟩ := by
  obtain ⟨fn, rfl, hle⟩ := h
  exact ⟨fn, Globals.lookup?_bindFresh_self _ _ _, hle⟩

/-- The dispatch name falls back no further than to a slot that is still pending. -/
theorem Step.boundFrom (h : Step depth depth c c') (hsound : c.Sound) (hdepth : depth ≠ 0)
    (huntouched : c'.globals.Untouched dispatchName)
    (hkept : ∀ k ≤ depth, c'.history ≠ .cleared k :: c.history)
    (hbound : c.pending.dispatchAt? depth ≠ none → c.BoundFrom depth)
    (hslot : c'.pending.dispatchAt? depth ≠ none) : c'.BoundFrom depth := by
  have hpending : c'.pending.WellFormed := (hsound.step h).pending
  -- the name moves only with a slot, and where it moves it goes to the nearest slot that is left
  cases h with
  | ensure name =>
      obtain ⟨fn, hfn, hle⟩ := hbound hslot
      exact ⟨fn, (Globals.lookup?_ensure hsound.named _ _).trans hfn, hle⟩
  | set cell value =>
      obtain ⟨fn, hfn, hle⟩ := hbound hslot
      exact ⟨fn, (Globals.lookup?_set hsound.named huntouched.of_set.2).trans hfn, hle⟩
  | opened k hook hfloor hk hnone => exact boundFrom_dispatchTo _ _ _ ⟨_, rfl, hfloor⟩
  | joined k hook fn hfloor hk hjoined =>
      rw [Pending.add_join hook hk hjoined] at hslot
      exact hbound hslot
  | spliced text pending => exact hbound hslot
  | cleared k fn hcleared =>
      have hdeeper : depth < k := by
        by_contra hle
        exact hkept k (by omega) rfl
      exact boundFrom_dispatchTo _ _ _ (hpending.le_nearest? hslot hdepth (by omega))
  | unwound k hleast hsome =>
      exact boundFrom_dispatchTo _ _ _ (hpending.le_nearest? hslot hdepth hleast)
  | trimmed k hleast hnone =>
      rw [Pending.dispatchAt?_unwindTo_zero hnone] at hslot
      exact hbound hslot

theorem Gathered.step (h : Gathered depth length c) (hstep : Step depth depth c c')
    (hsound : c.Sound)
    (hdepth : depth ≠ 0) (huntouched : c'.globals.Untouched dispatchName)
    (hcalm : c'.Calm depth length) : Gathered depth length c' where
  begun := Nat.le_trans h.begun hstep.suffix.length_le
  hooks := by
    rcases hstep.performed with ⟨hhistory, hpending⟩ | ⟨event, hhistory, hallowed, hpending⟩
    · rw [hpending, h.hooks, putOff, putOff, recent, recent, hhistory]
    · rw [putOff_cons hhistory h.begun, hpending, Event.hookAt?_eq, ← h.hooks]
      have hleaves := hcalm.head hhistory h.begun
      cases hcommand : event.command? with
      | none => simp
      | some command =>
          have hstays := Event.removes_of_leaves hallowed hleaves hcommand
          exact Pending.hooksAt_perform hsound.pending hdepth hstays
  bound := by
    refine hstep.boundFrom hsound hdepth huntouched (fun k hk hhistory => ?_) h.bound
    have hlt : depth < k := of_decide_eq_true (hcalm.head hhistory h.begun)
    omega

/-- Where nothing is pending at the depth of some code, all that it puts off there gathers. -/
theorem Steps.gathered (h : Steps depth depth c c') (hsound : c.Sound) (hdepth : depth ≠ 0)
    (hnone : c.pending.dispatchAt? depth = none) (huntouched : c'.globals.Untouched dispatchName)
    (hcalm : c'.Calm depth c.history.length) : Gathered depth c.history.length c' := by
  induction h with
  | refl =>
      refine ⟨Nat.le_refl _, ?_, fun hslot => absurd hnone hslot⟩
      simp [Pending.hooksAt, hnone, putOff, recent]
  | tail hsteps hstep ih =>
      have hbefore := ih (hstep.untouched huntouched) (hcalm.of_steps (.single hstep))
      exact hbefore.step hstep (hsound.steps hsteps) hdepth huntouched hcalm

/-- Once all deeper slots are gone, the dispatch name stands for what has gathered. -/
theorem Gathered.dispatch (h : Gathered depth length c) (hsound : c.Sound)
    (huntouched : c.globals.Untouched dispatchName)
    (hdeeper : ∀ k, depth < k → c.pending.dispatchAt? k = none)
    (hsome : c.putOff depth length ≠ []) :
    ∃ fn, c.globals.lookup? dispatchName = some (.dispatch fn) ∧ fn.depth = depth ∧
      c.pending.dispatchAt? depth = some fn ∧
      (c.pending.hooks fn).toList = c.putOff depth length := by
  have hhooks := h.hooks
  cases hslot : c.pending.dispatchAt? depth with
  | none =>
      rw [Pending.hooksAt, hslot] at hhooks
      exact absurd hhooks.symm hsome
  | some fn =>
      obtain ⟨fn', hlookup, hle⟩ := h.bound (by simp [hslot])
      obtain ⟨_, ⟨rfl⟩, hat⟩ := hsound.dispatch huntouched hlookup
      -- the name stands for a pending slot, and there is none deeper
      have hdepth : fn'.depth = depth := by
        by_contra hne
        rw [hdeeper fn'.depth (by omega)] at hat
        cases hat
      rw [hdepth, hslot] at hat
      cases hat
      rw [Pending.hooksAt, hslot] at hhooks
      exact ⟨fn, hlookup, hdepth, rfl, hhooks⟩

end Core

end Interpreter

end TwoPhase
