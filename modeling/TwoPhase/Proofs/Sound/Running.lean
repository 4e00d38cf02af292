import TwoPhase.Interpreter.Code
import TwoPhase.Proofs.Agreement
import TwoPhase.Proofs.Likeness.State
import TwoPhase.Proofs.Sound.Units

/-!
# Runs of sound code

Sound work at a sound state leads to a sound state, a sound value, or a sound error, and what it
leads to depends on no run of work that is not sound.  This module says what sound work is, and
gives the rules for what code enters and leaves.
-/

namespace TwoPhase.Interpreter

open Run (Agrees)

variable {α β : Type} {s t u : State} {text : List Char} {scopes : List Parser.LexicalScope}

/-! ## Errors -/

namespace State

/-- A fault that has an error inside, or that of a lexical name, which code at work does not raise
alike. -/
inductive Special : Fault → Prop where
  | construction (e : CompileError) : Special (.construction e)
  | lexical (name : String) : Special (.undefinedVariable (.lexical name))

theorem sound_raised {fault : Fault} (hfault : ¬Special fault) :
    EvalError.Sound t (s.raised fault) := by
  refine .mk (.inl ⟨rfl, rfl⟩) (fun e he => ?_) fun name hname => ?_
  · obtain rfl : fault = .construction e := he
    exact absurd (.construction e) hfault
  · obtain rfl : fault = .undefinedVariable (.lexical name) := hname
    exact absurd (.lexical name) hfault

theorem sound_attachBacktrace {e : EvalError} (h : EvalError.Sound t e) (calls : CallStack) :
    EvalError.Sound t (calls.attachBacktrace e) := by
  unfold CallStack.attachBacktrace
  split
  · exact h
  · obtain ⟨hplace, hcause, hdefined⟩ := h
    exact .mk hplace hcause hdefined

/-- An error is located where it has no better location. -/
theorem sound_locate {e : EvalError} (h : EvalError.Sound t e) {id : UnitId} {span : Span}
    (hunit : s.currentUnit = some id) (hspan : t.Places id span) :
    EvalError.Sound t (s.locate span e) := by
  obtain ⟨hplace, hcause, hdefined⟩ := h
  refine .mk (.inr ?_) hcause hdefined
  rcases hplace with ⟨hnone, hunit'⟩ | ⟨own, id', hown, hid, hplaces⟩
  · exact ⟨span, id, by simp [locate, Raised.orLocation, hnone],
      by simp [locate, Raised.orLocation, hunit', hunit], hspan⟩
  · exact ⟨own, id', by simp [locate, Raised.orLocation, hown],
      by simp [locate, Raised.orLocation, hid], hplaces⟩

/-! ## Code at work -/

/-- Code at work: of a unit that has a text settled, among some lexical scopes. -/
structure Works (s : State) (text : List Char) (scopes : List Parser.LexicalScope) : Prop where
  unit : ∃ id more, s.currentUnit = some id ∧ s.settled? id = some more ∧ text <+: more
  env : s.env.Provides True (some s.env.current) scopes

theorem Works.after {floor : Nat} (h : s.Works text scopes) (hafter : s.After floor t)
    (hfloor : s.env.current.index < floor) : t.Works text scopes := by
  obtain ⟨id, more, hcurrent, hmore, hbegins⟩ := h.unit
  obtain ⟨all, hall, hbegins'⟩ := hafter.settles id more hmore
  refine ⟨⟨id, all, hafter.currentUnit.trans hcurrent, hall, hbegins.trans hbegins'⟩, ?_⟩
  rw [hafter.env.current]
  exact h.env.after hafter.env hfloor

/-- What fits the text of the code at work has its place there. -/
theorem Works.places (h : s.Works text scopes) {span : Span} (hspan : span.Fits text) :
    ∃ id, s.currentUnit = some id ∧ s.Places id span := by
  obtain ⟨id, more, hcurrent, hmore, hbegins⟩ := h.unit
  exact ⟨id, hcurrent, more, hmore, hspan.mono hbegins⟩

end State

/-! ## Sound work -/

/-- Work whose code is at work where it is sound, and whose values are sound. -/
def Work.Sound (s : State) : {α : Type} → Work α → Prop
  | _, .expr e => ∃ text scopes, s.Works text scopes ∧ e.Sound text scopes
  | _, .block b => ∃ text kind scopes, s.Works text (.empty kind :: scopes) ∧
    b.Sound text kind scopes
  | _, .call callee args _ => callee.Sound s ∧ ∀ arg ∈ args, arg.Sound s
  | _, .native _ args => ∀ arg ∈ args, arg.Sound s

/-- How many of the oldest scopes introduce no variables: the statements of a block may introduce
some in the innermost one. -/
def Work.floor (s : State) : {α : Type} → Work α → Nat
  | _, .block _ => s.env.current.index
  | _, _ => s.env.heap.size

/-- The value that work gives. -/
def Work.result : {α : Type} → Work α → α → Value
  | _, .expr _, v => v
  | _, .block _, flow => flow.value
  | _, .call _ _ _, v => v
  | _, .native _ _, v => v

/-- Runs that agree and lead from a sound state to another. -/
abbrev Runs (floor : Nat) (s : State) (body body' : Eval α) (Q : α → State → Prop) : Prop :=
  Agrees (State.After floor) (fun e t => EvalError.Sound t e) s body body' Q

/-- Ways to run nested parts that agree on sound work, which lead to sound values. -/
def SoundParts (again again' : Again) : Prop :=
  ∀ {α : Type} (work : Work α) (s : State), s.Sound → work.Sound s →
    Runs (work.floor s) s (again work) (again' work) fun a t => (work.result a).Sound t

variable {floor : Nat}

/-- What stays said of a result when the state goes on. -/
def Lasting (Q : α → State → Prop) : Prop := ∀ a s t, s.Outlived t → Q a s → Q a t

theorem lasting_value {f : α → Value} : Lasting fun a t => (f a).Sound t :=
  fun _ _ _ hst h => h.outlived hst

namespace Runs

variable {body body' : Eval α} {Q : α → State → Prop}

theorem lower {least : Nat} (h : Runs floor s body body' Q) (hle : least ≤ floor) :
    Runs least s body body' Q :=
  h.weaken (fun _ h => h.mono hle) (fun _ _ _ h => h) fun _ _ _ h => h

variable (hs : s.Sound)

include hs

theorem raise {fault : Fault} (hfault : ¬State.Special fault) :
    Runs floor s (raise fault : Eval α) (raise fault) Q :=
  ⟨rfl, .refl hs, State.sound_raised hfault⟩

theorem pure {a : α} (h : Q a s) : Runs floor s (pure a) (pure a) Q := Agrees.pure (.refl hs) h

omit hs in
theorem traced (h : Runs floor s body body' Q) : Runs floor s (traced body) (traced body') Q :=
  h.mapError fun _ t _ he => State.sound_attachBacktrace he t.calls

omit hs in
/-- Errors are located in the code at work. -/
theorem located {span : Span} (h : Runs floor s body body' Q) (hworks : s.Works text scopes)
    (hspan : span.Fits text) :
    Runs floor s (located span body) (located span body') Q := by
  refine h.mapError fun e t hst he => ?_
  obtain ⟨id, hcurrent, hplaces⟩ := hworks.places hspan
  exact State.sound_attachBacktrace (State.sound_locate he (hst.currentUnit.trans hcurrent)
    (hplaces.settles hst.settles)) t.calls

/-! ## Entering and leaving -/

/-- Code in a frame of its own. -/
theorem withFrame {frame : Frame} (hlasting : Lasting Q)
    (h : ∀ calls, State.Sound { s with calls } → Runs floor { s with calls } body body' Q) :
    Runs floor s (withFrame frame body) (withFrame frame body') Q := by
  cases hpush : s.calls.push frame with
  | error fault =>
      have hfault : ¬State.Special fault := by
        rcases s.calls.push_cases frame with ⟨limit, _, _, hpush'⟩ | ⟨_, hpush'⟩ <;>
          rw [hpush] at hpush' <;> cases hpush'
        exact nofun
      simp only [Agrees, Interpreter.withFrame, Run.bind_apply, pushFrame, hpush]
      exact ⟨trivial, .refl hs, State.sound_raised hfault⟩
  | ok calls =>
      have hentered : s.After floor { s with calls } := .quiet hs rfl rfl rfl rfl
      have hleave : ∀ t : State, State.After floor { s with calls } t →
          s.After floor { t with calls := t.calls.pop } := fun t ht =>
        hentered.trans (ht.trans (.quiet ht.sound rfl rfl rfl rfl))
      refine (h calls hentered.sound).between (by simp [pushFrame, hpush])
        (fun a t hst ha => ⟨hleave t hst, ?_⟩) fun e t hst he => ⟨hleave t hst, ?_⟩
      · exact hlasting a t _ ⟨.refl t.env, .refl t⟩ ha
      · refine EvalError.Sound.settles ?_ he
        exact .of_units rfl rfl

/-- Code in a scope of its own, with nothing in it yet. -/
theorem inScope {enter : Eval PUnit} {parent : Option ScopeId} {hparent} (hlasting : Lasting Q)
    (henter : enter s = .value ⟨⟩ { s with env := s.env.enter (.empty parent) hparent })
    (h : State.Sound { s with env := s.env.enter (.empty parent) hparent } →
      Runs floor { s with env := s.env.enter (.empty parent) hparent } body body' Q) :
    Runs floor s (do enter; Run.ensuring body fun s => { s with env := s.env.pop })
      (do enter; Run.ensuring body' fun s => { s with env := s.env.pop }) Q := by
  refine (h hs.enter).between henter (fun a t hst ha => ⟨hst.leave, ?_⟩)
    fun e t hst he => ⟨hst.leave, ?_⟩
  · exact hlasting a t _ ⟨.pop t.env, .refl t⟩ ha
  · refine EvalError.Sound.settles ?_ he
    exact .of_units rfl rfl

theorem inCodeOf {id : UnitId} (hlasting : Lasting Q)
    (h : State.Sound { s with currentUnit := some id } →
      Runs floor { s with currentUnit := some id } body body' Q) :
    Runs floor s (inCodeOf (some id) body) (inCodeOf (some id) body') Q := by
  have hentered : State.Sound { s with currentUnit := some id } :=
    hs.next ⟨.refl s.env, .refl s⟩ (fun _ hv => .inl hv) hs.ordered
  have hleave : ∀ t : State, State.After floor { s with currentUnit := some id } t →
      s.After floor { t with currentUnit := s.currentUnit } := fun t ht =>
    ⟨ht.sound.next ⟨.refl t.env, .refl t⟩ (fun _ hv => .inl hv) ht.sound.ordered, ht.env,
      ht.settles, ht.units, rfl⟩
  refine .get ?_
  refine (h hentered).between rfl (fun a t hst ha => ⟨hleave t hst, ?_⟩)
    fun e t hst he => ⟨hleave t hst, ?_⟩
  · exact hlasting a t _ ⟨.refl t.env, .refl t⟩ ha
  · refine EvalError.Sound.settles ?_ he
    exact .of_units rfl rfl

/-! ## Blocks and functions -/

variable {again again' : Again} (h : SoundParts again again')

include h

omit hs in
/-- A nested part. -/
theorem nested {γ : Type} (work : Work γ) (hs : s.Sound) (hwork : work.Sound s)
    (hfloor : floor ≤ work.floor s) :
    Runs floor s (again work) (again' work) fun a t => (work.result a).Sound t :=
  (h work s hs hwork).lower hfloor

/-- A block inside the code at work. -/
theorem scopedBlock {kind : Parser.ScopeKind} {b : Block} (hworks : s.Works text scopes)
    (hb : b.Sound text kind scopes) (hfloor : floor ≤ s.env.heap.size) :
    Runs floor s (scopedBlock again b) (scopedBlock again' b) fun flow t => flow.value.Sound t := by
  refine inScope hs lasting_value rfl fun hentered => ?_
  exact nested h (.block b) hentered ⟨text, kind, scopes, ⟨hworks.unit, hworks.env.push⟩, hb⟩ hfloor

end Runs

end TwoPhase.Interpreter
