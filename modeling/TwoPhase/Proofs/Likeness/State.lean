import TwoPhase.Interpreter.Eval
import TwoPhase.Proofs.Deferral.Slots
import TwoPhase.Proofs.Likeness.Buffer
import TwoPhase.Proofs.Likeness.Environment

/-!
# States

States are alike if everything in them is.  Where call frames do not count, the call stacks may be
any two.
-/

namespace TwoPhase

variable {K : Comparison}

/-! ## Globals -/

/-- The same cell, up to spans in its value. -/
structure Cell.Like (K : Comparison) (c d : Cell) : Prop where
  name : c.name = d.name
  value : Option.Rel (Value.Like K) c.value d.value
  written : c.written = d.written

/-- The same names and cells, up to spans in values. -/
structure Globals.Like (K : Comparison) (g h : Globals) : Prop where
  cells : g.cells.toList.Forall₂ (Cell.Like K) h.cells.toList
  names : g.names = h.names

theorem Cell.Like.refl (c : Cell) : c.Like K c := ⟨rfl, rel_refl .same _, rfl⟩

theorem Cell.Like.eq {c d : Cell} (hexact : K.exact) (h : c.Like K d) : c = d := by
  obtain ⟨name, value, written⟩ := c
  obtain ⟨name', value', written'⟩ := d
  obtain ⟨rfl, hvalue, rfl⟩ := h
  rw [show value = value' from eq_of_rel (Value.Like.eq hexact) hvalue]

namespace Globals.Like

variable {g h : Globals}

theorem refl (g : Globals) : g.Like K g := ⟨forall₂_refl_of .refl _, rfl⟩

theorem eq (hexact : K.exact) (hlike : g.Like K h) : g = h := by
  obtain ⟨cells, names⟩ := g
  obtain ⟨cells', names'⟩ := h
  obtain ⟨hcells, rfl⟩ := hlike
  rw [show cells = cells' from Array.toList_inj.1 (eq_of_forall₂ (Cell.Like.eq hexact) hcells)]

theorem size (hlike : g.Like K h) : g.cells.size = h.cells.size := hlike.cells.length_eq

theorem get? (hlike : g.Like K h) (name : String) : g.get? name = h.get? name := by
  rw [Globals.get?, Globals.get?, hlike.names]

theorem contains (hlike : g.Like K h) (name : String) : g.contains name = h.contains name := by
  rw [Globals.contains, Globals.contains, hlike.get?]

theorem value? (hlike : g.Like K h) (cell : CellRef) :
    Option.Rel (Value.Like K) (g.value? cell) (h.value? cell) := by
  have hcell := forall₂_getElem? hlike.cells cell.id
  rw [Array.getElem?_toList, Array.getElem?_toList] at hcell
  rw [Globals.value?, Globals.value?]
  rcases rel_cases hcell with ⟨hg, hh⟩ | ⟨c, d, hg, hh, hcd⟩ <;> rw [hg, hh]
  · exact .none
  · exact hcd.value

theorem lookup? (hlike : g.Like K h) (name : String) :
    Option.Rel (Value.Like K) (g.lookup? name) (h.lookup? name) := by
  rw [Globals.lookup?, Globals.lookup?, ← hlike.get?]
  cases g.get? name with
  | none => exact .none
  | some cell => exact hlike.value? cell

theorem bindFresh (hlike : g.Like K h) (name : String) {v w : Option Value}
    (hvalue : Option.Rel (Value.Like K) v w) :
    (g.bindFresh name v).Like K (h.bindFresh name w) := by
  refine ⟨?_, ?_⟩
  · simp only [Globals.bindFresh, Array.toList_push]
    exact forall₂_append hlike.cells (.cons ⟨rfl, hvalue, rfl⟩ .nil)
  · simp only [Globals.bindFresh, hlike.names, hlike.size]

theorem cell (hlike : g.Like K h) (name : String) : g.cell name = h.cell name := by
  rw [Globals.cell, Globals.cell, hlike.get?, Globals.nextCell, Globals.nextCell, hlike.size]

theorem ensure (hlike : g.Like K h) (name : String) : (g.ensure name).Like K (h.ensure name) := by
  rw [Globals.ensure, Globals.ensure, ← hlike.contains]
  split
  · exact hlike
  · exact hlike.bindFresh name .none

theorem set (hlike : g.Like K h) (cell : CellRef) {v w : Value} (hvalue : v.Like K w) :
    (g.set cell v).Like K (h.set cell w) := by
  refine ⟨?_, hlike.names⟩
  simp only [Globals.set, Array.toList_modify]
  refine forall₂_modify hlike.cells (fun {c d} hcell => ?_) _
  exact Cell.Like.mk hcell.name (.some hvalue) rfl

theorem define (hlike : g.Like K h) (name : String) {v w : Value} (hvalue : v.Like K w) :
    (g.define name v).Like K (h.define name w) := by
  rw [Globals.define, Globals.define, ← hlike.cell]
  exact (hlike.ensure name).set _ hvalue

theorem replace (hlike : g.Like K h) (name : String) {v w : Value} (hvalue : v.Like K w) :
    (g.replace name v).2.Like K (h.replace name w).2 :=
  hlike.bindFresh name (.some hvalue)

theorem remove (hlike : g.Like K h) (name : String) :
    (g.remove name).2.Like K (h.remove name).2 :=
  ⟨hlike.cells, congrArg (·.erase name) hlike.names⟩

end Globals.Like

/-! ## Pending hooks -/

/-- The same slots, and hooks that are the same up to spans. -/
structure Pending.Like (K : Comparison) (p q : Pending DeferredBlock) : Prop where
  lists : TwoPhase.Like K p.lists q.lists
  slots : p.slots = q.slots

namespace Pending.Like

variable {p q : Pending DeferredBlock}

theorem refl (p : Pending DeferredBlock) : p.Like K p := ⟨like_refl K p.lists, rfl⟩

theorem dispatchAt? (h : p.Like K q) (depth : Nat) : p.dispatchAt? depth = q.dispatchAt? depth := by
  rw [Pending.dispatchAt?, Pending.dispatchAt?, h.slots]

theorem hasSlot (h : p.Like K q) (depth : Nat) : p.hasSlot depth = q.hasSlot depth := by
  rw [Pending.hasSlot, Pending.hasSlot, h.dispatchAt?]

theorem nearest? (h : p.Like K q) (depth : Nat) : p.nearest? depth = q.nearest? depth :=
  Pending.nearest?_congr fun k _ _ => h.dispatchAt? k

theorem activeDepths (h : p.Like K q) : p.activeDepths = q.activeDepths := by
  rw [Pending.activeDepths, Pending.activeDepths, h.slots, funext h.hasSlot]

theorem hooks_toList (h : p.Like K q) (fn : DispatchFn) :
    (p.hooks fn).toList.Forall₂ (Hook.Like K) (q.hooks fn).toList := by
  have hlist := forall₂_getElem? h.lists fn.list
  rw [Array.getElem?_toList, Array.getElem?_toList] at hlist
  rw [Pending.hooks, Pending.hooks, Array.getD_eq_getD_getElem?, Array.getD_eq_getD_getElem?]
  rcases rel_cases hlist with ⟨hp, hq⟩ | ⟨hooks, hooks', hp, hq, hhooks⟩ <;> rw [hp, hq]
  · exact .nil
  · exact hhooks

theorem hooks (h : p.Like K q) (fn : DispatchFn) (i : Nat) :
    Option.Rel (Hook.Like K) (p.hooks fn)[i]? (q.hooks fn)[i]? := by
  have hhook := forall₂_getElem? (h.hooks_toList fn) i
  rwa [Array.getElem?_toList, Array.getElem?_toList] at hhook

theorem add (h : p.Like K q) (depth : Nat) {hook hook' : Hook DeferredBlock}
    (hhook : hook.Like K hook') :
    (p.add depth hook).1 = (q.add depth hook').1 ∧
      (p.add depth hook).2.Like K (q.add depth hook').2 := by
  have hsize : p.lists.size = q.lists.size := h.lists.length_eq
  unfold Pending.add
  rw [← h.dispatchAt?]
  split
  · exact ⟨rfl, h⟩
  · cases p.dispatchAt? depth with
    | some fn =>
        refine ⟨rfl, ?_, h.slots⟩
        simp only [TwoPhase.Like, Array.toList_modify]
        refine forall₂_modify h.lists (fun {hooks hooks'} hhooks => ?_) _
        simp only [TwoPhase.Like, Array.toList_push]
        exact forall₂_append hhooks (.cons hhook .nil)
    | none =>
        dsimp only
        rw [← hsize, ← h.slots]
        refine ⟨rfl, ?_, rfl⟩
        simp only [TwoPhase.Like, Array.toList_push]
        exact forall₂_append h.lists (.cons (.cons hhook .nil) .nil)

theorem clear (h : p.Like K q) (depth : Nat) :
    (p.clear depth).1 = (q.clear depth).1 ∧ (p.clear depth).2.Like K (q.clear depth).2 := by
  unfold Pending.clear
  rw [← h.dispatchAt?]
  cases p.dispatchAt? depth with
  | none => exact ⟨rfl, h⟩
  | some fn =>
      have hcleared : Pending.Like K
          { p with slots := Pending.trim (p.slots.setIfInBounds depth none) }
          { q with slots := Pending.trim (q.slots.setIfInBounds depth none) } :=
        ⟨h.lists, by rw [h.slots]⟩
      exact ⟨congrArg Except.ok (hcleared.nearest? _), hcleared⟩

theorem unwindTo (h : p.Like K q) (depth : Nat) :
    (p.unwindTo depth).1 = (q.unwindTo depth).1 ∧
      (p.unwindTo depth).2.Like K (q.unwindTo depth).2 := by
  simp only [Pending.unwindTo, h.slots]
  exact ⟨trivial, h.lists, rfl⟩

end Pending.Like

/-! ## Units -/

instance : HasLike UnitOrigin := .ofEq

/-- The same unit, with the same words ahead. -/
structure Construction.Like (K : Comparison) (c d : Construction) : Prop where
  buffer : c.buffer.Like K d.buffer
  origin : c.origin = d.origin
  name : c.name = d.name
  id : c.id = d.id

/-- The same unit, up to spliced text. -/
structure UnitRecord.Like (K : Comparison) (r q : UnitRecord) : Prop where
  name : r.name = q.name
  path : r.path = q.path
  origin : r.origin = q.origin
  given : r.given = q.given
  text : K.exact → r.text = q.text

/-- The same constructed unit, up to spans and spliced text. -/
structure CompiledUnit.Like (K : Comparison) (u v : CompiledUnit) : Prop where
  name : u.name = v.name
  origin : u.origin = v.origin
  body : u.body.Like K v.body
  source : K.exact → u.source = v.source
  id : u.id = v.id

theorem Construction.Like.eq {c d : Construction} (hexact : K.exact) (h : c.Like K d) : c = d := by
  obtain ⟨buffer, origin, name, id⟩ := c
  obtain ⟨buffer', origin', name', id'⟩ := d
  obtain ⟨hbuffer, rfl, rfl, rfl⟩ := h
  rw [show buffer = buffer' from hbuffer.eq hexact]

theorem UnitRecord.Like.eq {r q : UnitRecord} (hexact : K.exact) (h : r.Like K q) : r = q := by
  obtain ⟨name, path, origin, given, text⟩ := r
  obtain ⟨name', path', origin', given', text'⟩ := q
  obtain ⟨rfl, rfl, rfl, rfl, htext⟩ := h
  rw [show text = text' from htext hexact]

theorem CompiledUnit.Like.eq {u v : CompiledUnit} (hexact : K.exact) (h : u.Like K v) : u = v := by
  obtain ⟨name, origin, body, source, id⟩ := u
  obtain ⟨name', origin', body', source', id'⟩ := v
  obtain ⟨rfl, rfl, hbody, hsource, rfl⟩ := h
  rw [show body = body' from hbody.eq hexact, show source = source' from hsource hexact]

instance : HasLike Construction := ⟨Construction.Like, fun _ c => ⟨.refl c.buffer, rfl, rfl, rfl⟩⟩
instance : HasLike UnitRecord := ⟨UnitRecord.Like, fun _ _ => ⟨rfl, rfl, rfl, rfl, fun _ => rfl⟩⟩
instance : HasLike CompiledUnit :=
  ⟨CompiledUnit.Like, fun _ u => ⟨rfl, rfl, .refl u.body, fun _ => rfl, rfl⟩⟩

instance : SpansOnly Construction := ⟨fun hexact => Construction.Like.eq hexact⟩

/-! ## Call stacks -/

/-- The same frame, up to its span. -/
structure Frame.Like (K : Comparison) (f g : Frame) : Prop where
  name : f.name = g.name
  kind : f.kind = g.kind
  span : Option.Rel (Span.Like K) f.span g.span

theorem Frame.Like.eq {f g : Frame} (hexact : K.exact) (h : f.Like K g) : f = g := by
  obtain ⟨name, kind, span⟩ := f
  obtain ⟨name', kind', span'⟩ := g
  obtain ⟨rfl, rfl, hspan⟩ := h
  rw [show span = span' from eq_of_rel (fun h => h hexact) hspan]

/-- The same frames, up to their spans. -/
structure CallStack.Same (K : Comparison) (c d : CallStack) : Prop where
  frames : c.frames.Forall₂ (Frame.Like K) d.frames
  limit : c.limit = d.limit
  peak : c.peak = d.peak

/-- The same frames if frames count. -/
def CallStack.Like (K : Comparison) (c d : CallStack) : Prop := K.frames → c.Same K d

instance : HasLike Fault := .ofEq

theorem CallStack.Like.refl (c : CallStack) : c.Like K c := fun _ =>
  ⟨forall₂_refl_of (fun frame => ⟨rfl, rfl, rel_refl .refl frame.span⟩) c.frames, rfl, rfl⟩

theorem CallStack.Like.eq {c d : CallStack} (hexact : K.exact) (hframes : K.frames)
    (h : c.Like K d) : c = d := by
  obtain ⟨hsame, hlimit, hpeak⟩ := h hframes
  obtain ⟨frames, limit, depth, peak, hdepth⟩ := c
  obtain ⟨frames', limit', depth', peak', hdepth'⟩ := d
  obtain rfl : frames = frames' := eq_of_forall₂ (Frame.Like.eq hexact) hsame
  obtain rfl : depth = depth' := hdepth.trans hdepth'.symm
  obtain rfl : limit = limit' := hlimit
  obtain rfl : peak = peak' := hpeak
  rfl

instance : HasLike CallStack := ⟨CallStack.Like, fun _ => .refl⟩

/-- The stack with one more frame. -/
def CallStack.pushed (c : CallStack) (frame : Frame) : CallStack :=
  ⟨frame :: c.frames, c.limit, c.depth + 1, max c.peak (c.depth + 1), c.depth_cons frame⟩

/-- A frame is pushed unless the limit is reached. -/
theorem CallStack.push_cases (c : CallStack) (frame : Frame) :
    (∃ limit, c.limit = some limit ∧ limit ≤ c.depth ∧ c.push frame = .error (.callDepth limit)) ∨
      ((∀ limit, c.limit = some limit → c.depth < limit) ∧
        c.push frame = .ok (c.pushed frame)) := by
  cases hlimit : c.limit with
  | none => exact .inr ⟨fun _ h => (by cases h), by simp [push, hlimit, pushed]⟩
  | some limit =>
      by_cases hfull : limit ≤ c.depth
      · exact .inl ⟨limit, rfl, hfull, by simp [push, hlimit, hfull]⟩
      · refine .inr ⟨fun l hl => ?_, by simp [push, hlimit, hfull, pushed]⟩
        cases hl
        exact Nat.lt_of_not_le hfull

theorem CallStack.eq_pushed {c d : CallStack} {frame : Frame} (h : c.push frame = .ok d) :
    d = c.pushed frame := by
  rcases c.push_cases frame with ⟨limit, _, _, hpush⟩ | ⟨_, hpush⟩
  · rw [h] at hpush
    cases hpush
  · rw [h] at hpush
    exact Except.ok.inj hpush

theorem CallStack.kind_attachBacktrace (c : CallStack) (e : EvalError) :
    (c.attachBacktrace e).kind = e.kind := by
  unfold attachBacktrace
  split <;> rfl

theorem CallStack.unit_attachBacktrace (c : CallStack) (e : EvalError) :
    (c.attachBacktrace e).unit = e.unit := by
  unfold attachBacktrace
  split <;> rfl

/-- The stack has never had more frames than its limit. -/
def CallStack.Bounded (c : CallStack) : Prop := ∀ limit, c.limit = some limit → c.peak ≤ limit

theorem CallStack.Bounded.pushed {c : CallStack} (h : c.Bounded)
    (hfree : ∀ limit, c.limit = some limit → c.depth < limit) (frame : Frame) :
    (c.pushed frame).Bounded :=
  fun limit hlimit => Nat.max_le.2 ⟨h limit hlimit, hfree limit hlimit⟩

namespace CallStack.Like

variable {c d : CallStack}

theorem push (h : c.Like K d) (hunlimited : ¬K.frames → c.limit = none ∧ d.limit = none)
    {f g : Frame} (hframe : K.frames → f.Like K g) :
    TwoPhase.Like K (c.push f) (d.push g) := by
  have hpushed : K.frames → (c.pushed f).Same K (d.pushed g) := by
    intro hframes
    obtain ⟨hsame, hlimit, hpeak⟩ := h hframes
    refine ⟨.cons (hframe hframes) hsame, hlimit, ?_⟩
    simp only [CallStack.pushed, c.depth_eq, d.depth_eq, hsame.length_eq, hpeak]
  -- stacks of one length and one limit are full together, and without a limit none ever is
  rcases c.push_cases f with ⟨limit, hc, hfull, hpush⟩ | ⟨hfree, hpush⟩ <;>
    rcases d.push_cases g with ⟨limit', hd, hfull', hpush'⟩ | ⟨hfree', hpush'⟩ <;>
    rw [hpush, hpush']
  · by_cases hframes : K.frames
    · rw [(h hframes).limit, hd] at hc
      cases hc
      rfl
    · rw [(hunlimited hframes).1] at hc
      cases hc
  · by_cases hframes : K.frames
    · have hlt := hfree' limit ((h hframes).limit ▸ hc)
      rw [d.depth_eq, ← (h hframes).frames.length_eq, ← c.depth_eq] at hlt
      exact absurd hlt (Nat.not_lt.2 hfull)
    · rw [(hunlimited hframes).1] at hc
      cases hc
  · by_cases hframes : K.frames
    · have hlt := hfree limit' ((h hframes).limit ▸ hd)
      rw [c.depth_eq, (h hframes).frames.length_eq, ← d.depth_eq] at hlt
      exact absurd hlt (Nat.not_lt.2 hfull')
    · rw [(hunlimited hframes).2] at hd
      cases hd
  · exact hpushed

theorem pop (h : c.Like K d) : c.pop.Like K d.pop := fun hframes =>
  ⟨forall₂_tail (h hframes).frames, (h hframes).limit, (h hframes).peak⟩

theorem names (h : c.Like K d) (hframes : K.frames) : c.names = d.names :=
  map_eq_of_forall₂ (h hframes).frames (·.name)

/-- A backtrace makes errors no less alike. -/
theorem attachBacktrace (h : c.Like K d) {e f : EvalError} (he : EvalError.Like K e f) :
    EvalError.Like K (c.attachBacktrace e) (d.attachBacktrace f) := by
  refine ⟨?_, ?_, fun hexact hframes => ?_⟩
  · rw [c.kind_attachBacktrace, d.kind_attachBacktrace, he.kind]
  · rw [c.unit_attachBacktrace, d.unit_attachBacktrace, he.unit]
  · rw [he.eq hexact hframes, h.eq hexact hframes]

end CallStack.Like

/-! ## States -/

namespace Interpreter

/-- The same event, up to spans in hooks. -/
inductive Event.Like (K : Comparison) : Event → Event → Prop where
  | same (event : Event) : Event.Like K event event
  | deferred (depth : Nat) {hook hook' : Hook DeferredBlock} (h : hook.Like K hook') :
      Event.Like K (.deferred depth hook) (.deferred depth hook')

theorem Event.Like.eq {e f : Event} (hexact : K.exact) (h : e.Like K f) : e = f := by
  cases h with
  | same => rfl
  | deferred depth h =>
      cases h with
      | atRuntime h => rw [h.eq hexact]
      | afterRuntime h => rw [h.eq hexact]

instance : HasLike Event := ⟨Event.Like, fun _ => .same⟩

instance : SpansOnly Event := ⟨fun hexact => Event.Like.eq hexact⟩

/-- What became of the same hook, up to spans. -/
inductive ExitEvent.Like (K : Comparison) : ExitEvent → ExitEvent → Prop where
  | awaited {exits exits' : List (List DeferredBlock)} {block block' : DeferredBlock}
      (hexits : TwoPhase.Like K exits exits') (h : block.Like K block') :
      ExitEvent.Like K (.awaited exits block) (.awaited exits' block')
  | invoked {exits exits' : List (List DeferredBlock)} {block block' : DeferredBlock}
      (hexits : TwoPhase.Like K exits exits') (h : block.Like K block') :
      ExitEvent.Like K (.invoked exits block) (.invoked exits' block')

theorem ExitEvent.Like.refl : ∀ event : ExitEvent, event.Like K event
  | .awaited exits block => .awaited (like_refl K exits) (like_refl K block)
  | .invoked exits block => .invoked (like_refl K exits) (like_refl K block)

theorem ExitEvent.Like.eq {e f : ExitEvent} (hexact : K.exact) (h : e.Like K f) : e = f := by
  cases h with
  | awaited hexits h => rw [eq_of_like hexact hexits, h.eq hexact]
  | invoked hexits h => rw [eq_of_like hexact hexits, h.eq hexact]

instance : HasLike ExitEvent := ⟨ExitEvent.Like, fun _ => .refl⟩

instance : SpansOnly ExitEvent := ⟨fun hexact => ExitEvent.Like.eq hexact⟩

/-- The same state in all that counts. -/
structure State.Like (K : Comparison) (s t : State) : Prop where
  globals : s.globals.Like K t.globals
  units : TwoPhase.Like K s.units t.units
  depth : s.depth = t.depth
  nesting : s.nesting = t.nesting
  warnings : s.warnings = t.warnings
  pending : s.deferral.pending.Like K t.deferral.pending
  mode : K.exact → s.deferral.mode = t.deferral.mode
  history : TwoPhase.Like K s.history t.history
  env : s.env.Like K t.env
  calls : s.calls.Like K t.calls
  asked : s.asked = t.asked
  exits : TwoPhase.Like K s.exits t.exits
  exitLog : TwoPhase.Like K s.exitLog t.exitLog
  modules : s.modules = t.modules
  modulePaths : s.modulePaths = t.modulePaths
  files : s.files = t.files
  consulted : s.consulted = t.consulted
  output : s.output = t.output
  mainUnit : s.mainUnit = t.mainUnit
  records : TwoPhase.Like K s.records.units t.records.units
  currentUnit : s.currentUnit = t.currentUnit
  nextId : s.nextId = t.nextId
  kept : NameMap.Like (Value.Like K) s.kept t.kept

theorem State.Like.refl (s : State) : s.Like K s where
  globals := .refl _
  units := like_refl K _
  depth := rfl
  nesting := rfl
  warnings := rfl
  pending := .refl _
  mode _ := rfl
  history := like_refl K _
  env := .refl _
  calls := .refl _
  asked := rfl
  exits := like_refl K _
  exitLog := like_refl K _
  modules := rfl
  modulePaths := rfl
  files := rfl
  consulted := rfl
  output := rfl
  mainUnit := rfl
  records := like_refl K _
  currentUnit := rfl
  nextId := rfl
  kept := .same _

instance : HasLike State := ⟨State.Like, fun _ => .refl⟩

/-- Where spans count, states that are alike differ in their call stacks at most. -/
theorem State.Like.eq_calls {s t : State} (hexact : K.exact) (h : s.Like K t) :
    t = { s with calls := t.calls } := by
  have hdeferral : t.deferral = s.deferral := by
    obtain ⟨lists, hslots⟩ := h.pending
    have hlists := eq_of_like hexact lists
    have hmode := h.mode hexact
    generalize s.deferral = d at *
    generalize t.deferral = d' at *
    obtain ⟨⟨lists, slots⟩, mode⟩ := d
    obtain ⟨⟨lists', slots'⟩, mode'⟩ := d'
    simp_all
  have hrecords : t.records = s.records :=
    congrArg UnitTable.mk
      (Array.toList_inj.1 (eq_of_forall₂ (UnitRecord.Like.eq hexact) h.records)).symm
  have hunits : t.units = s.units := (eq_of_like hexact h.units).symm
  have hhistory : t.history = s.history := (eq_of_like hexact h.history).symm
  have hexits : t.exits = s.exits := (eq_of_like hexact h.exits).symm
  have hexitLog : t.exitLog = s.exitLog := (eq_of_like hexact h.exitLog).symm
  have hkept : t.kept = s.kept := (h.kept.eq (Value.Like.eq hexact)).symm
  have hglobals := (h.globals.eq hexact).symm
  have henv := (h.env.eq hexact).symm
  obtain ⟨_, _, hdepth, hnesting, hwarnings, _, _, _, _, _, hasked, _, _, hmodules,
    hmodulePaths, hfiles, hconsulted, houtput, hmainUnit, _, hcurrentUnit, hnextId, _⟩ := h
  cases t
  simp_all

theorem State.Like.eq {s t : State} (hexact : K.exact) (hframes : K.frames) (h : s.Like K t) :
    s = t := by
  rw [h.eq_calls hexact, ← h.calls.eq hexact hframes]

end Interpreter

end TwoPhase
