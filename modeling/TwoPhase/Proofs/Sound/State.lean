import TwoPhase.Proofs.Globals
import TwoPhase.Proofs.Interpreter.Deferral
import TwoPhase.Proofs.Sound.Environment
import TwoPhase.Proofs.Sound.Tree

/-!
# Sound states

A state is sound if the subs in it are: their code is sound for the text of their unit, and the
environment provides what a closure captured.  The text of a unit is settled as far as it has been
consumed while the unit is under construction, and all of it when it is recorded for good.

Whatever code does, settled text stays settled and captured scopes stay provided.  So values, and
the places of errors, stay good (`State.Outlived`).  What code does otherwise is a list of steps,
and each leads from one sound state to another (`State.After`).
-/

namespace TwoPhase

open Interpreter

/-! ## Values -/

/-- A sub that a value is, or that is in a list. -/
inductive Value.Has : Value → Sub → Prop where
  | self (sub : Sub) : Value.Has (.sub sub) sub
  | item {items : Array Value} {v : Value} {sub : Sub} (hv : v ∈ items) (h : v.Has sub) :
      Value.Has (.list items) sub

/-- A value of a cell. -/
def Globals.Holds (g : Globals) (v : Value) : Prop := ∃ cell, g.value? cell = some v

/-- A value of a variable. -/
def Environment.Holds (e : Environment) (v : Value) : Prop :=
  ∃ (i : Nat) (scope : Scope) (name : String) (var : Variable),
    e.heap[i]? = some scope ∧ scope.binding? name = some var ∧ var.value = v

/-- A callable of a hook. -/
def Pending.Holds (p : Pending DeferredBlock) (v : Value) : Prop :=
  ∃ fn, ∃ hook ∈ p.hooks fn, hook.block.callable = v

namespace Interpreter

variable {s t u : State} {id : UnitId} {text : List Char} {v : Value}

/-- Where a state holds values. -/
structure Store where
  globals : Globals
  env : Environment
  pending : Pending DeferredBlock
  exits : List (List DeferredBlock)
  kept : NameMap Value

def State.store (s : State) : Store :=
  ⟨s.globals, s.env, s.deferral.pending, s.exits, s.kept⟩

/-- A value that code may come upon. -/
inductive Store.Holds (m : Store) : Value → Prop where
  | global {v : Value} (h : m.globals.Holds v) : m.Holds v
  | lexical {v : Value} (h : m.env.Holds v) : m.Holds v
  | pending {v : Value} (h : m.pending.Holds v) : m.Holds v
  | waiting {blocks : List DeferredBlock} {block : DeferredBlock} (hblocks : blocks ∈ m.exits)
      (h : block ∈ blocks) : m.Holds block.callable
  | kept {name : String} {v : Value} (h : m.kept[name]? = some v) : m.Holds v

/-! ## Settled texts -/

/-- The text of a unit as far as it is settled. -/
def State.settled? (s : State) (id : UnitId) : Option (List Char) :=
  match s.units.find? (·.id = id) with
  | some unit => some unit.buffer.behind
  | none => (s.records.get? id).map (·.text.toList)

/-- What was settled is settled. -/
def State.Settles (s t : State) : Prop :=
  ∀ id text, s.settled? id = some text → ∃ more, t.settled? id = some more ∧ text <+: more

/-- A span of the settled text of a unit. -/
def State.Places (s : State) (id : UnitId) (span : Span) : Prop :=
  ∃ text, s.settled? id = some text ∧ span.Fits text

/-- What values and errors depend on has stayed. -/
structure State.Outlived (s t : State) : Prop where
  env : s.env.Outlived t.env
  settles : s.Settles t

namespace State

theorem Settles.refl (s : State) : s.Settles s := fun _ text h => ⟨text, h, List.prefix_rfl⟩

/-- Texts depend on the units only. -/
theorem Settles.of_units (hunits : t.units = s.units) (hrecords : t.records = s.records) :
    s.Settles t := by
  refine fun id text htext => ⟨text, ?_, List.prefix_rfl⟩
  rwa [settled?, hunits, hrecords]

theorem Settles.trans (h : s.Settles t) (h' : t.Settles u) : s.Settles u := by
  intro id text hsettled
  obtain ⟨more, hmore, hbegins⟩ := h id text hsettled
  obtain ⟨all, hall, hbegins'⟩ := h' id more hmore
  exact ⟨all, hall, hbegins.trans hbegins'⟩

theorem Places.settles {span : Span} (h : s.Places id span) (hsettles : s.Settles t) :
    t.Places id span := by
  obtain ⟨text, htext, hspan⟩ := h
  obtain ⟨more, hmore, hbegins⟩ := hsettles id text htext
  exact ⟨more, hmore, hspan.mono hbegins⟩

end State

end Interpreter

/-! ## Sound values -/

/-- A sub whose code is sound for the settled text of its unit, and captured what it refers to. -/
inductive Sub.Sound (s : State) (sub : Sub) : Prop where
  | mk {id : UnitId} {text : List Char} {kind : Parser.ScopeKind}
      {scopes : List Parser.LexicalScope} (hunit : sub.unit = some id)
      (htext : s.settled? id = some text) (hfunction : sub.function.Sound text kind scopes)
      (hcaptured : kind.isBarrier = false → kind = .closure ∧
        ∃ scope, sub.captured = some scope ∧ scope.index < s.env.kept ∧
          s.env.Provides False (some scope) scopes)

/-- A value whose subs are sound. -/
def Value.Sound (s : State) (v : Value) : Prop := ∀ sub, v.Has sub → sub.Sound s

variable {s t : State}

theorem Sub.Sound.outlived {sub : Sub} (h : sub.Sound s) (hst : s.Outlived t) : sub.Sound t := by
  obtain ⟨hunit, htext, hfunction, hcaptured⟩ := h
  obtain ⟨more, hmore, hbegins⟩ := hst.settles _ _ htext
  refine ⟨hunit, hmore, hfunction.mono hbegins, fun hbarrier => ?_⟩
  obtain ⟨hkind, scope, hscope, hkept, hprovides⟩ := hcaptured hbarrier
  exact ⟨hkind, scope, hscope, Nat.lt_of_lt_of_le hkept hst.env.kept,
    hprovides.outlived hst.env hkept⟩

namespace Value.Sound

theorem outlived {v : Value} (h : v.Sound s) (hst : s.Outlived t) : v.Sound t :=
  fun sub hsub => (h sub hsub).outlived hst

@[simp] theorem nil : Value.nil.Sound s := nofun

@[simp] theorem bool (b : Bool) : (Value.bool b).Sound s := nofun

@[simp] theorem int (n : Int64) : (Value.int n).Sound s := nofun

@[simp] theorem str (text : String) : (Value.str text).Sound s := nofun

@[simp] theorem native (native : Native) : (Value.native native).Sound s := nofun

@[simp] theorem dispatch (fn : DispatchFn) : (Value.dispatch fn).Sound s := nofun

theorem sub {sub : Sub} (h : sub.Sound s) : (Value.sub sub).Sound s := by
  rintro _ ⟨⟩
  exact h

theorem of_sub {sub : Sub} (h : (Value.sub sub).Sound s) : sub.Sound s := h sub (.self sub)

theorem list {items : Array Value} (h : ∀ v ∈ items, v.Sound s) : (Value.list items).Sound s := by
  rintro other (_ | ⟨hv, hother⟩)
  exact h _ hv other hother

end Value.Sound

/-! ## Sound errors -/

mutual

/-- An error that is not located, or located in the settled text of a unit, and so is its cause.  It
is not that of a lexical name, since these have values. -/
inductive EvalError.Sound (s : State) : EvalError → Prop where
  | mk {e : EvalError}
      (hplace : e.span = none ∧ e.unit = none ∨
        ∃ span id, e.span = some span ∧ e.unit = some id ∧ s.Places id span)
      (hcause : ∀ error, e.kind = .construction error → CompileError.Sound s error)
      (hdefined : ∀ name, e.kind ≠ .undefinedVariable (.lexical name)) : EvalError.Sound s e

/-- An error of a construction, located in the settled text of its unit. -/
inductive CompileError.Sound (s : State) : CompileError → Prop where
  | parse {error : ParseError} {id : UnitId} (hspan : s.Places id error.span)
      (hopened : ∀ opened ∈ error.fault.openedAt?, s.Places id opened) :
      CompileError.Sound s (.parse error (some id))
  | failedBegin {span : Span} {cause : EvalError} {id : UnitId} (hspan : s.Places id span)
      (hcause : EvalError.Sound s cause) : CompileError.Sound s (.failedBegin span cause (some id))

end

mutual

theorem EvalError.Sound.settles (hst : s.Settles t) : ∀ {e : EvalError},
    EvalError.Sound s e → EvalError.Sound t e
  | _, .mk hplace hcause hdefined => by
    refine .mk ?_ (fun error herror => (hcause error herror).settles hst) hdefined
    rcases hplace with hnone | ⟨span, id, hspan, hid, hplaces⟩
    · exact .inl hnone
    · exact .inr ⟨span, id, hspan, hid, hplaces.settles hst⟩

theorem CompileError.Sound.settles (hst : s.Settles t) : ∀ {e : CompileError},
    CompileError.Sound s e → CompileError.Sound t e
  | _, .parse hspan hopened =>
    .parse (hspan.settles hst) fun opened h => (hopened opened h).settles hst
  | _, .failedBegin hspan hcause => .failedBegin (hspan.settles hst) (hcause.settles hst)

end

/-! ## Sound states -/

namespace Interpreter

variable {u : State} {floor : Nat} {v : Value}

/-- Units are numbered in the order in which they are begun. -/
def State.Ordered (s : State) : Prop :=
  (s.records.size :: s.units.map (·.id.index)).Pairwise (· > ·)

/-- A state whose values are sound. -/
structure State.Sound (s : State) : Prop where
  values : ∀ v, s.store.Holds v → v.Sound s
  ordered : s.Ordered

/-- What has become of a sound state whose stacks are as they were, and whose oldest scopes have
introduced no variables. -/
structure State.After (floor : Nat) (s t : State) : Prop where
  sound : t.Sound
  env : s.env.After floor t.env
  settles : s.Settles t
  units : t.units.map (·.id) = s.units.map (·.id)
  currentUnit : t.currentUnit = s.currentUnit

namespace State

theorem Ordered.grow (h : s.Ordered) (hunits : t.units.map (·.id) = s.units.map (·.id))
    (hrecords : s.records.size ≤ t.records.size) : t.Ordered := by
  have hindices : ∀ units : List Construction,
      units.map (·.id.index) = (units.map (·.id)).map (·.index) := fun units => by simp
  unfold Ordered at h ⊢
  rw [hindices, hunits, ← hindices]
  rw [List.pairwise_cons] at h ⊢
  exact ⟨fun i hi => Nat.lt_of_lt_of_le (h.1 i hi) hrecords, h.2⟩

/-- A state is sound if it follows on a sound one and holds nothing unsound. -/
theorem Sound.next (h : s.Sound) (hst : s.Outlived t)
    (hvalues : ∀ v, t.store.Holds v → s.store.Holds v ∨ v.Sound t) (hordered : t.Ordered) :
    t.Sound := by
  refine ⟨fun v hv => ?_, hordered⟩
  rcases hvalues v hv with hold | hnew
  · exact (h.values v hold).outlived hst
  · exact hnew

namespace After

theorem refl (h : s.Sound) : s.After floor s := ⟨h, .refl s.env, .refl s, rfl, rfl⟩

theorem trans (h : s.After floor t) (h' : t.After floor u) : s.After floor u where
  sound := h'.sound
  env := h.env.trans h'.env
  settles := h.settles.trans h'.settles
  units := h'.units.trans h.units
  currentUnit := h'.currentUnit.trans h.currentUnit

instance : Trans (State.After floor) (State.After floor) (State.After floor) := ⟨trans⟩

theorem mono {least : Nat} (h : s.After floor t) (hle : least ≤ floor) : s.After least t :=
  { h with env := h.env.mono hle }

theorem outlived (h : s.After floor t) : s.Outlived t := ⟨h.env.outlived, h.settles⟩

/-- One step from a sound state. -/
theorem step (hs : s.Sound) (henv : s.env.After floor t.env) (hsettles : s.Settles t)
    (hunits : t.units.map (·.id) = s.units.map (·.id)) (hrecords : t.records.size = s.records.size)
    (hcurrent : t.currentUnit = s.currentUnit)
    (hvalues : ∀ v, t.store.Holds v → s.store.Holds v ∨ v.Sound s) : s.After floor t := by
  have hst : s.Outlived t := ⟨henv.outlived, hsettles⟩
  refine ⟨hs.next hst (fun v hv => ?_) ?_, henv, hsettles, hunits, hcurrent⟩
  · exact (hvalues v hv).imp_right fun h => h.outlived hst
  · exact hs.ordered.grow hunits (Nat.le_of_eq hrecords.symm)

/-- A step that leaves units and scopes alone. -/
theorem write (hs : s.Sound) (henv : t.env = s.env) (hunits : t.units = s.units)
    (hrecords : t.records = s.records) (hcurrent : t.currentUnit = s.currentUnit)
    (hvalues : ∀ v, t.store.Holds v → s.store.Holds v ∨ v.Sound s) : s.After floor t := by
  refine step hs ?_ (.of_units hunits hrecords) (congrArg _ hunits) (congrArg _ hrecords) hcurrent
    hvalues
  rw [henv]
  exact .refl s.env

/-- A step that leaves alone what soundness is about. -/
theorem quiet (hs : s.Sound) (hstore : t.store = s.store) (hunits : t.units = s.units)
    (hrecords : t.records = s.records) (hcurrent : t.currentUnit = s.currentUnit) :
    s.After floor t :=
  write hs (congrArg Store.env hstore) hunits hrecords hcurrent fun _ hv => .inl (hstore ▸ hv)

end After

/-! ### Variables -/

theorem holds_define {e : Environment} {id : ScopeId} {name : String} {value : Value}
    (h : (e.defineIn id name value).Holds v) : e.Holds v ∨ v = value := by
  obtain ⟨i, scope, other, var, hscope, hvar, rfl⟩ := h
  simp only [Environment.defineIn, Environment.change, Array.getElem?_modify] at hscope
  split at hscope
  · obtain ⟨old, hold, rfl⟩ := Option.map_eq_some_iff.1 hscope
    simp only [Scope.binding?, Scope.define, Std.TreeMap.getElem?_insert] at hvar
    split at hvar
    · cases hvar
      exact .inr rfl
    · exact .inl ⟨i, old, other, var, hold, hvar, rfl⟩
  · exact .inl ⟨i, scope, other, var, hscope, hvar, rfl⟩

theorem holds_assign {e : Environment} {id : ScopeId} {name : String} {value : Value}
    (h : (e.assignIn id name value).Holds v) : e.Holds v ∨ v = value := by
  obtain ⟨i, scope, other, var, hscope, hvar, rfl⟩ := h
  simp only [Environment.assignIn, Environment.change, Array.getElem?_modify] at hscope
  split at hscope
  · obtain ⟨old, hold, rfl⟩ := Option.map_eq_some_iff.1 hscope
    unfold Scope.assign at hvar
    split at hvar
    · simp only [Scope.binding?, Std.TreeMap.getElem?_insert] at hvar
      split at hvar
      · cases hvar
        exact .inr rfl
      · exact .inl ⟨i, old, other, var, hold, hvar, rfl⟩
    · exact .inl ⟨i, old, other, var, hold, hvar, rfl⟩
  · exact .inl ⟨i, scope, other, var, hscope, hvar, rfl⟩

/-- A name gives the value of a variable. -/
theorem holds_lookupFrom {e : Environment} {name : String} {start : ScopeId}
    (h : e.lookupFrom? name start = some v) : e.Holds v := by
  induction start using e.scopes_induction with
  | step start ih =>
      rw [e.lookupFrom?_eq] at h
      cases hscope : e.heap[start.index]? with
      | none => simp [hscope] at h
      | some scope =>
          rw [hscope] at h
          dsimp only at h
          cases hlookup : scope.lookup? name with
          | some w =>
              obtain ⟨var, hvar, rfl⟩ := Option.map_eq_some_iff.1 hlookup
              rw [hlookup] at h
              cases h
              exact ⟨start.index, scope, name, var, hscope, hvar, rfl⟩
          | none =>
              rw [hlookup] at h
              dsimp only at h
              cases hparent : scope.parent with
              | none => simp [hparent] at h
              | some p => exact ih scope p hscope hparent (by simpa [hparent] using h)

/-- A step that changes the environment only. -/
theorem After.rescope (hs : s.Sound) {e : Environment} (henv : s.env.After floor e)
    (hvalues : ∀ v, e.Holds v → s.env.Holds v ∨ v.Sound s) : s.After floor { s with env := e } := by
  refine step hs henv (.refl s) rfl rfl rfl fun w hw => ?_
  cases hw with
  | lexical h => exact (hvalues w h).imp_left .lexical
  | global h => exact .inl (.global h)
  | pending h => exact .inl (.pending h)
  | waiting hblocks h => exact .inl (.waiting hblocks h)
  | kept h => exact .inl (.kept h)

theorem After.define (hs : s.Sound) (name : String) (hv : v.Sound s)
    (hfloor : floor ≤ s.env.current.index) :
    s.After floor { s with env := s.env.define name v } :=
  .rescope hs (.defineIn name v hfloor) fun _ hw =>
    (holds_define hw).imp_right (by rintro rfl; exact hv)

theorem After.assign (hs : s.Sound) (id : ScopeId) (name : String) (hv : v.Sound s) :
    s.After floor { s with env := s.env.assignIn id name v } :=
  .rescope hs (.assignIn name v) fun _ hw => (holds_assign hw).imp_right (by rintro rfl; exact hv)

theorem After.capture (hs : s.Sound) : s.After floor { s with env := s.env.capture.2 } :=
  .rescope hs (.capture s.env) fun _ hw => .inl hw

theorem holds_enter {e : Environment} {parent : Option ScopeId} {hparent}
    (h : (e.enter (.empty parent) hparent).Holds v) : e.Holds v := by
  obtain ⟨i, scope, name, var, hscope, hvar, rfl⟩ := h
  simp only [Environment.enter, Array.getElem?_push] at hscope
  split at hscope
  · cases hscope
    simp [Scope.binding?, Scope.empty] at hvar
  · exact ⟨i, scope, name, var, hscope, hvar, rfl⟩

theorem holds_pop {e : Environment} (h : e.pop.Holds v) : e.Holds v := by
  obtain ⟨i, scope, name, var, hscope, hvar, rfl⟩ := h
  refine ⟨i, scope, name, var, ?_, hvar, rfl⟩
  rw [e.pop_heap] at hscope
  split at hscope
  · exact hscope
  · simp only [Array.shrink_eq_take, Array.take_eq_extract, Array.getElem?_extract] at hscope
    split at hscope
    · rwa [Nat.zero_add] at hscope
    · cases hscope

/-- A state stays sound in another environment that holds nothing new. -/
theorem Sound.rescope (h : s.Sound) {e : Environment} (houtlived : s.env.Outlived e)
    (hvalues : ∀ v, e.Holds v → s.env.Holds v) : State.Sound { s with env := e } := by
  refine h.next ⟨houtlived, .refl s⟩ (fun v hv => .inl ?_) h.ordered
  cases hv with
  | lexical h => exact .lexical (hvalues v h)
  | global h => exact .global h
  | pending h => exact .pending h
  | waiting hblocks h => exact .waiting hblocks h
  | kept h => exact .kept h

/-- A sound state stays sound when a scope is entered, -/
theorem Sound.enter (h : s.Sound) {parent : Option ScopeId} {hparent} :
    State.Sound { s with env := s.env.enter (.empty parent) hparent } :=
  h.rescope (.enter s.env _ hparent) fun _ => holds_enter

/-- and when it is left again. -/
theorem After.leave {parent : Option ScopeId} {hparent}
    (h : State.After floor { s with env := s.env.enter (.empty parent) hparent } t) :
    s.After floor { t with env := t.env.pop } := by
  have henv : (s.env.enter (.empty parent) hparent).After floor t.env := h.env
  exact ⟨h.sound.rescope (.pop t.env) fun _ => holds_pop, henv.pop, h.settles, h.units,
    h.currentUnit⟩

/-! ### Globals -/

theorem holds_bindFresh {g : Globals} {name : String} {value : Option Value}
    (h : (g.bindFresh name value).Holds v) : g.Holds v ∨ value = some v := by
  obtain ⟨cell, hcell⟩ := h
  rw [Globals.value?_bindFresh] at hcell
  split at hcell
  · exact .inr hcell
  · exact .inl ⟨cell, hcell⟩

theorem holds_ensure {g : Globals} {name : String} (h : (g.ensure name).Holds v) : g.Holds v := by
  unfold Globals.ensure at h
  split at h
  · exact h
  · exact (holds_bindFresh h).resolve_right nofun

theorem holds_set {g : Globals} {cell : CellRef} {value : Value} (h : (g.set cell value).Holds v) :
    g.Holds v ∨ v = value := by
  obtain ⟨other, hother⟩ := h
  simp only [Globals.value?, Globals.set, Array.getElem?_modify] at hother
  split at hother
  · cases hcell : g.cells[other.id]? with
    | none => simp [hcell] at hother
    | some old =>
        simp only [hcell, Option.map_some, Option.bind_some, Option.some.injEq] at hother
        exact .inr hother.symm
  · exact .inl ⟨other, hother⟩

theorem holds_dispatchTo {g : Globals} {fn : Option DispatchFn} (h : (dispatchTo g fn).Holds v) :
    g.Holds v ∨ v.Sound s := by
  cases fn with
  | none => exact .inl h
  | some fn =>
      rcases holds_bindFresh h with hold | hnew
      · exact .inl hold
      · cases hnew
        exact .inr (.dispatch fn)

/-- A step that changes the globals only. -/
theorem After.setGlobals (hs : s.Sound) {g : Globals}
    (hvalues : ∀ v, g.Holds v → s.globals.Holds v ∨ v.Sound s) :
    s.After floor { s with globals := g } := by
  refine write hs rfl rfl rfl rfl fun w hw => ?_
  cases hw with
  | global h => exact (hvalues w h).imp_left .global
  | lexical h => exact .inl (.lexical h)
  | pending h => exact .inl (.pending h)
  | waiting hblocks h => exact .inl (.waiting hblocks h)
  | kept h => exact .inl (.kept h)

theorem After.set (hs : s.Sound) (cell : CellRef) (hv : v.Sound s) :
    s.After floor { s with globals := s.globals.set cell v } :=
  .setGlobals hs fun _ hw => (holds_set hw).imp_right (by rintro rfl; exact hv)

theorem After.ensure (hs : s.Sound) (name : String) :
    s.After floor { s with globals := s.globals.ensure name } :=
  .setGlobals hs fun _ hw => .inl (holds_ensure hw)

theorem After.defineGlobal (hs : s.Sound) (name : String) (hv : v.Sound s) :
    s.After floor { s with globals := s.globals.define name v } :=
  .setGlobals hs fun _ hw => (holds_set hw).imp holds_ensure (by rintro rfl; exact hv)

end State

end Interpreter

end TwoPhase
