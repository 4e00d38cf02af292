import TwoPhase.Proofs.Interpreter.Gathered
import TwoPhase.Proofs.Interpreter.Guarded

/-!
# What awaits the parser behind a block

A `begin` block hands the buffer of its unit back to the parser with text spliced in behind the
cursor.  Of a block that leaves its unit alone otherwise, this is the dispatch call and the marker
of its depth, once, if it put anything off, and nothing if it did not.  Neither the number of hooks
nor what the units constructed meanwhile splice into themselves makes a difference.
-/

namespace TwoPhase

namespace Deferral

variable {B : Type} {d d' : Deferral B} {depth : Nat}

/-- A buffer with the text spliced in that announces the slot of a depth, if there is one. -/
def announced (d : Deferral B) (depth : Nat) (b : Buffer) : Buffer :=
  if d.pending.hasSlot depth then b.insert d.mode (dispatchFragment depth) else b

theorem announced_none (h : d.pending.dispatchAt? depth = none) : d.announced depth = id := by
  funext b
  simp [announced, Pending.hasSlot, h]

theorem announced_some {fn : DispatchFn} (h : d.pending.dispatchAt? depth = some fn) (b : Buffer) :
    d.announced depth b = b.insert d.mode (dispatchFragment depth) := by
  simp [announced, Pending.hasSlot, h]

/-- What announces a slot depends on the mode and on whether there is a slot. -/
theorem announced_congr (hmode : d'.mode = d.mode)
    (hslot : d'.pending.dispatchAt? depth = d.pending.dispatchAt? depth) :
    d'.announced depth = d.announced depth := by
  funext b
  rw [announced, announced, Pending.hasSlot, Pending.hasSlot, hslot, hmode]

end Deferral

namespace Interpreter

open Run (Triple Keeps)

variable {α : Type} {s t u : State} {bound : Nat}

/-- The buffer of the innermost unit, while one of its blocks runs. -/
def State.innermost? (s : State) : Option Buffer := s.units.head?.map (·.buffer)

/-- A state that code has come to from another one.  As long as it has left its unit alone, no more
has been spliced into the unit than what announces the slot of its depth. -/
structure Awaiting (s t : State) : Prop where
  within : Within s t
  text : t.core.Calm s.depth s.history.length →
    t.innermost? = s.innermost?.map (t.deferral.announced s.depth)

namespace Awaiting

theorem refl (hnone : s.deferral.pending.dispatchAt? s.depth = none) : Awaiting s s where
  within := .refl s
  text _ := by rw [Deferral.announced_none hnone, Option.map_id_apply]

/-- What code does keeps the invariant if it keeps the text. -/
theorem step (h : Awaiting s t) (hwithin : Within t u)
    (htext : u.core.Calm s.depth s.history.length →
      t.innermost? = s.innermost?.map (t.deferral.announced s.depth) →
      u.innermost? = s.innermost?.map (u.deferral.announced s.depth)) : Awaiting s u where
  within := h.within.trans hwithin
  text hcalm := htext hcalm (h.text (hcalm.of_steps hwithin.core))

/-- What code does to other units and slots keeps the invariant. -/
theorem aside (h : Awaiting s t) (hwithin : Within t u) (hunits : u.units = t.units)
    (hslot : u.core.Calm s.depth s.history.length →
      u.deferral.pending.dispatchAt? s.depth = t.deferral.pending.dispatchAt? s.depth) :
    Awaiting s u := by
  refine h.step hwithin fun hcalm htext => ?_
  rw [Deferral.announced_congr hwithin.mode (hslot hcalm), ← htext]
  rw [State.innermost?, hunits, State.innermost?]

theorem begun (h : Awaiting s t) : s.history.length ≤ t.history.length :=
  h.within.core.suffix.length_le

theorem stable (s : State) : Stable (Awaiting s) where
  alike h halike :=
    h.aside halike.within (congrArg Seen.units halike) fun _ =>
      congrArg (fun seen => seen.deferral.pending.dispatchAt? s.depth) halike

theorem write (h : Awaiting s t) (cell : CellRef) (value : Value) :
    Awaiting s { t with globals := t.globals.set cell value } :=
  h.aside ⟨rfl, rfl, .refl _, .single (.set _ cell value)⟩ rfl fun _ => rfl

theorem defer (callable : Value) (after : Bool) : Keeps (Awaiting s) (defer callable after) := by
  intro t ht
  rcases defer_cases callable after t with ⟨fault, h, _⟩ | ⟨hook, u, hput, h, _⟩ <;> rw [h]
  · exact ht
  have hwithin := hput.within
  have hdepth : t.depth = s.depth := ht.within.depth
  cases hput with
  | joined fn hne hslot =>
      refine ht.aside hwithin rfl fun _ => ?_
      simp only [State.record, Pending.add_join hook hne hslot]
      rfl
  | opened hne hslot hinjected =>
      obtain ⟨unit, outer, warnings, hunits, -, rfl⟩ := hinjected
      refine ht.step hwithin fun _ htext => ?_
      -- there was no slot, so the unit was as the code had found it
      rw [hdepth] at hslot
      rw [Deferral.announced_none hslot, Option.map_id_apply] at htext
      have hopened : (t.deferral.pending.add t.depth hook).2.dispatchAt? s.depth
          = some ⟨t.deferral.pending.lists.size, s.depth⟩ := by
        rw [hdepth, Pending.dispatchAt?_add_open hook (hdepth ▸ hne) hslot, if_pos rfl]
      rw [← htext, State.innermost?, State.innermost?, hunits]
      simp only [State.record, List.head?_cons, Option.map_some]
      rw [Deferral.announced_some hopened, hdepth]

theorem splice (text : String) : Keeps (Awaiting s) (lexStuff text) := by
  intro t ht
  have hkeeps := lexStuff_within (s := t) text t (.refl t)
  rcases lexStuff_cases text t with ⟨e, h⟩ | ⟨u, hinjected, h⟩ <;> rw [h] at hkeeps ⊢
  · exact ht
  obtain ⟨unit, outer, warnings, -, -, rfl⟩ := hinjected
  -- code that leaves its unit alone does not come here
  refine ht.step hkeeps fun hcalm _ => ?_
  have hleaves := hcalm.head (c := t.core) rfl ht.begun
  cases hleaves

theorem clear (depth : Nat) : Keeps (Awaiting s) (clearDepth depth) := by
  intro t ht
  have hkeeps := clearDepth_within (s := t) depth t (.refl t)
  rcases clearDepth_cases depth t with ⟨e, h⟩ | ⟨fn, hslot, h⟩ <;> rw [h] at hkeeps ⊢
  · exact ht
  refine ht.aside hkeeps rfl fun hcalm => ?_
  have hdeeper : s.depth < depth :=
    of_decide_eq_true (hcalm.head (c := t.core) rfl ht.begun)
  have hclear := Pending.dispatchAt?_clear t.deferral.pending depth s.depth
  rw [if_neg (by omega)] at hclear
  exact hclear

theorem construct (name : String) (origin : UnitOrigin) (path : Option String) (source : String) :
    Keeps (Awaiting s) (construct bound (run bound) name origin path source) := by
  intro t ht
  -- the unit under construction has slots of its own, one deeper, and keeps the one of the code
  have hkept : ∀ u, Around t u → Awaiting s u := by
    intro u haround
    refine ht.aside haround.within haround.units fun hcalm => ?_
    have hdepth : t.depth = s.depth := ht.within.depth
    exact haround.core.slot_kept (by omega) (by omega) ht.begun
      (hcalm.cleared_notMem (Nat.le_refl _))
  have hconstruct := run_construct bound t name origin path source
  exact hconstruct.weaken (fun _ => id) (fun _ => hkept) (fun _ => hkept) t rfl

/-- Code that leaves its unit alone splices no more into it than what announces its slot. -/
theorem run (bound : Nat) (s : State) (work : Work α) :
    Keeps (Awaiting s) (Interpreter.run bound work) := by
  refine run_keeps (I := Awaiting) (fun bound hnested s => ?_) bound s work
  exact {
    toStable := stable s
    nested := hnested s
    write := fun cell value ht => ht.write cell value
    defer := Awaiting.defer
    splice := Awaiting.splice
    clear := Awaiting.clear
    construct := Awaiting.construct }

end Awaiting

/-! ## Running the block -/

variable {left : Nat} {body : Block} {span : Span} {b : Buffer}

/-- A block that leaves its unit alone gives the parser its buffer back with its slot announced. -/
theorem runBegin_announced (ht : Hosting s t)
    (hnone : t.deferral.pending.dispatchAt? (t.depth + 1) = none) :
    Triple (· = (b, t)) ((host bound (run bound)).runBegin left body span)
      (fun _ p => p.2.core.Calm (t.depth + 1) t.history.length →
        p.1 = p.2.deferral.announced (t.depth + 1) b)
      (fun _ p => p.2.core.Calm (t.depth + 1) t.history.length →
        p.1 = p.2.deferral.announced (t.depth + 1) b) := by
  let start : State := { t.withBuffer b with
    depth := t.depth + 1, nesting := t.nesting + (bound - left) }
  have hstart : start.innermost? = some b := by
    obtain ⟨unit, hunits⟩ := ht.units
    simp only [start, State.innermost?, State.withBuffer]
    rw [hunits]
    rfl
  refine runBegin_keeps (Q := fun b' u => u.core.Calm (t.depth + 1) t.history.length →
    b' = u.deferral.announced (t.depth + 1) b) (Awaiting.stable start)
    (Awaiting.run bound start (.block body)) (.refl hnone) fun u hu hcalm => ?_
  have htext := hu.text hcalm
  rw [hstart, Option.map_some] at htext
  change (u.innermost?).getD b = _
  rw [htext]
  rfl

/-- A block leaves no slot deeper than its own, if there was none. -/
theorem runBegin_deeper (hs : Reachable s) (ht : Hosting s t)
    (hnone : ∀ k, t.depth < k → t.deferral.pending.dispatchAt? k = none) :
    Triple (· = (b, t)) ((host bound (run bound)).runBegin left body span)
      (fun _ p => p.2.core.Undisturbed t.history.length →
        ∀ k, t.depth + 1 < k → p.2.deferral.pending.dispatchAt? k = none)
      (fun _ p => p.2.core.Undisturbed t.history.length →
        ∀ k, t.depth + 1 < k → p.2.deferral.pending.dispatchAt? k = none) := by
  let start : State := { t.withBuffer b with
    depth := t.depth + 1, nesting := t.nesting + (bound - left) }
  have hreachable : Reachable t := hs.hosting ht
  have hstart : Marked t.history.length (t.depth + 1) start := by
    refine ⟨rfl, hreachable, Nat.le_refl _, fun _ => ⟨fun k hk => ?_, fun hslot => ?_⟩⟩
    · exact hnone k (by omega)
    · exact absurd (hnone (t.depth + 1) (Nat.lt_succ_self _)) hslot
  exact runBegin_keeps (Q := fun _ u => u.core.Undisturbed t.history.length →
    ∀ k, t.depth + 1 < k → u.deferral.pending.dispatchAt? k = none) Marked.stable
    (Marked.run bound _ _ (.block body)) hstart fun u hu hundisturbed k hk =>
      (hu.guarded hundisturbed).deeper k hk

/-- Code that splices nothing in by hand comes between no marker and its effect. -/
theorem Core.Calm.undisturbed {depth length : Nat} {c : Core} (h : c.Calm depth length)
    (huntouched : c.globals.Untouched clearName) : c.Undisturbed length where
  clearing := huntouched
  closed text hmem := by
    have hleaves := h _ (Core.mem_splices.1 hmem)
    cases hleaves

end Interpreter

end TwoPhase
