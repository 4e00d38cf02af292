import TwoPhase.Proofs.Live
import TwoPhase.Proofs.Sound.Code

/-!
# The course of a session

An embedding program makes an interpreter, puts requests to it, and uses in these what it was given:
the units that were constructed for it, and the subs in the values that were answered.  So a session
stays sound from request to request (`Course.sound`).

Which parts of a program a request comes to run, and in which states, is said without following it
step by step: what becomes of the request depends on what becomes of these parts there, so it is
another one if just that were (`DependsOn`).  All that a session runs is sound (`AtWork.sound`).
-/

namespace TwoPhase

open Interpreter
open Run (Agrees)
open Session (Request RunError Answer)

variable {s t u : State} {vs : List Value} {us : List CompiledUnit} {bound : Nat}

/-! ## What requests use and what they give -/

/-- The subs of a value are among those of some values. -/
def Value.Of (v : Value) (vs : List Value) : Prop := ∀ sub, v.Has sub → ∃ w ∈ vs, w.Has sub

namespace Session

/-- A request uses no other subs and units than given ones. -/
def Request.Uses (vs : List Value) (us : List CompiledUnit) : Request → Prop
  | execute unit => unit ∈ us
  | call callee args => callee.Of vs ∧ ∀ arg ∈ args, arg.Of vs
  | defer callable _ => callable.Of vs
  | _ => True

/-- The values that an answer gives. -/
def Answer.values : Answer → List Value
  | .value v => [v]
  | _ => []

/-- The units that an answer gives. -/
def Answer.units : Answer → List CompiledUnit
  | .unit u => [u]
  | _ => []

end Session

/-- A course that a session can take: the state it has come to between two requests, and the values
and units that it has given so far. -/
inductive Course : State → List Value → List CompiledUnit → Prop where
  | start (settings : Settings) : Course (Session.start settings) [] []
  | answered {s t : State} {vs : List Value} {us : List CompiledUnit}
      (h : Course s vs us) {request : Request} (huses : request.Uses vs us)
      (bound : Nat) {answer : Answer} (hrun : request.run bound s = .value answer t) :
      Course t (answer.values ++ vs) (answer.units ++ us)
  | failed {s t : State} {vs : List Value} {us : List CompiledUnit}
      (h : Course s vs us) {request : Request} (huses : request.Uses vs us)
      (bound : Nat) {e : RunError} (hrun : request.run bound s = .error e t) :
      Course t vs us
  | global {s : State} {vs : List Value} {us : List CompiledUnit}
      (h : Course s vs us) (name : String) {v : Value}
      (hv : Session.global? s name = some v) : Course s (v :: vs) us
  | addModule {s : State} {vs : List Value} {us : List CompiledUnit}
      (h : Course s vs us) (name source : String) :
      Course (Session.addModule name source s) vs us
  | takeWarnings {s : State} {vs : List Value} {us : List CompiledUnit}
      (h : Course s vs us) : Course (Session.takeWarnings s).2 vs us
  | takeOutput {s : State} {vs : List Value} {us : List CompiledUnit}
      (h : Course s vs us) : Course (Session.takeOutput s).2 vs us

/-! ## Sound requests -/

namespace Session

/-- An error that is located in settled texts. -/
def RunError.Sound (s : State) : RunError → Prop
  | compile error => CompileError.Sound s error
  | runtime error => EvalError.Sound s error

/-- A request that uses sound subs and units. -/
def Request.Sound (s : State) : Request → Prop
  | execute unit => unit.Sound s
  | call callee args => callee.Sound s ∧ ∀ arg ∈ args, arg.Sound s
  | defer callable _ => callable.Sound s
  | _ => True

/-- An answer that gives sound values and units. -/
structure Answer.Sound (s : State) (answer : Answer) : Prop where
  values : ∀ v ∈ answer.values, v.Sound s
  units : ∀ unit ∈ answer.units, unit.Sound s

namespace Answer.Sound

theorem value {v : Value} (h : v.Sound s) : (Answer.value v).Sound s :=
  ⟨fun _ hv => List.mem_singleton.1 hv ▸ h, fun _ hunit => absurd hunit List.not_mem_nil⟩

theorem unit {unit : CompiledUnit} (h : unit.Sound s) : (Answer.unit unit).Sound s :=
  ⟨fun _ hv => absurd hv List.not_mem_nil, fun _ hunit => List.mem_singleton.1 hunit ▸ h⟩

theorem done : Answer.done.Sound s :=
  ⟨fun _ hv => absurd hv List.not_mem_nil, fun _ hunit => absurd hunit List.not_mem_nil⟩

end Answer.Sound

theorem Request.Uses.sound {request : Request} (h : request.Uses vs us)
    (hvalues : ∀ v ∈ vs, v.Sound s) (hunits : ∀ unit ∈ us, unit.Sound s) :
    request.Sound s := by
  have hof : ∀ v : Value, v.Of vs → v.Sound s := by
    intro v hv sub hsub
    obtain ⟨w, hw, hhas⟩ := hv sub hsub
    exact hvalues w hw sub hhas
  cases request with
  | execute unit => exact hunits unit h
  | call callee args => exact ⟨hof callee h.1, fun arg harg => hof arg (h.2 arg harg)⟩
  | defer callable after => exact hof callable h
  | _ => trivial

end Session

namespace Interpreter.SoundParts

variable {again again' : Again} (h : SoundParts again again')

/-- What is asked for leads to an answer that is made of its value. -/
theorem answered {α : Type} {floor : Nat} {body body' : Eval α} {Q : α → State → Prop}
    {answer : α → Answer} (hbody : Runs floor s body body' Q)
    (hanswer : ∀ a t, Q a t → (answer a).Sound t) :
    Agrees (State.After floor) (fun e t => RunError.Sound t e) s
      (answer <$> Run.mapError body fun _ => RunError.runtime)
      (answer <$> Run.mapError body' fun _ => RunError.runtime) fun a t => a.Sound t := by
  rw [map_eq_pure_bind, map_eq_pure_bind]
  have hruntime : Agrees (State.After floor) (fun e t => RunError.Sound t e) s
      (Run.mapError body fun _ => RunError.runtime) (Run.mapError body' fun _ => RunError.runtime)
      Q := hbody.mapError fun _ _ _ he => he
  exact hruntime.bind fun a t ht ha => .pure (.refl ht.sound) (hanswer a t ha)

include h

theorem compileWith (rounds : Nat) (hs : s.Sound) (source : String) (name path : Option String) :
    Agrees (State.After s.env.heap.size) (fun e t => RunError.Sound t e) s
      (Run.mapError (Request.compileWith rounds again source name path)
        fun _ => RunError.compile)
      (Run.mapError (Request.compileWith rounds again' source name path)
        fun _ => RunError.compile) fun unit t => unit.Sound t :=
  Agrees.mapError (Agrees.get (h.construct hs (Nat.le_refl _) _ _ _ _)) fun _ _ _ he => he

/-- A sound request leads from a sound state to another, and to a sound answer or a sound error. -/
theorem request (rounds : Nat) {request : Request} (hs : s.Sound) (hrequest : request.Sound s) :
    Agrees (State.After s.env.heap.size) (fun e t => RunError.Sound t e) s
      (request.runWith rounds again) (request.runWith rounds again') fun a t => a.Sound t := by
  have hsize : s.env.heap.size ≤ s.env.heap.size := Nat.le_refl _
  cases request with
  | compile source name path =>
      simp only [Request.runWith, map_eq_pure_bind]
      exact (h.compileWith rounds hs source name path).bind fun unit t ht hunit =>
        .pure (.refl ht.sound) (.unit hunit)
  | execute unit => exact answered (h.execute hs hsize hrequest) fun _ _ hv => .value hv
  | runSource source =>
      simp only [Request.runWith, map_eq_pure_bind]
      refine Agrees.bind ((h.compileWith rounds hs source none none).bind fun unit t ht hunit =>
        Agrees.mapError (h.execute ht.sound ht.env.size hunit) fun _ _ _ he => he)
        fun v t ht hv => .pure (.refl ht.sound) (.value hv)
  | call callee args =>
      exact answered (h.callValue hs hsize hrequest.1 hrequest.2 _) fun _ _ hv => .value hv
  | eval text => exact answered (h.evalString hs hsize text) fun _ _ hv => .value hv
  | require name => exact answered (h.require hs hsize name) fun _ _ hv => .value hv
  | defer callable after => exact answered (Runs.defer hs hrequest after) fun _ _ _ => .done
  | lexStuff text => exact answered (Runs.lexStuff hs text) fun _ _ _ => .done

end Interpreter.SoundParts

/-! ## Sound sessions -/

/-- The globals hold natives at the start, and probes only if these are bound. -/
theorem Interpreter.State.nativeGlobals_holds {probes : Bool} {v : Value}
    (h : (State.nativeGlobals probes).Holds v) :
    ∃ native, v = .native native ∧ (probes = false → ∃ sub, native = .builtin sub) := by
  have hfold : ∀ (natives : List Native) (g : Globals),
      (natives.foldl (fun g native => g.bindFresh native.name (some (.native native))) g).Holds v →
      g.Holds v ∨ ∃ native ∈ natives, v = .native native := by
    intro natives
    induction natives with
    | nil => exact fun _ => .inl
    | cons native natives ih =>
        intro g hv
        rcases ih _ hv with hold | ⟨other, hother, hv⟩
        · rcases State.holds_bindFresh hold with hold | hnew
          · exact .inl hold
          · exact .inr ⟨native, List.mem_cons_self, (Option.some.inj hnew).symm⟩
        · exact .inr ⟨other, List.mem_cons_of_mem _ hother, hv⟩
  rcases hfold _ _ h with ⟨cell, hcell⟩ | ⟨native, hnative, hv⟩
  · simp [Globals.value?, Globals.empty] at hcell
  · refine ⟨native, hv, fun hprobes => ?_⟩
    rw [hprobes] at hnative
    obtain ⟨sub, _, hsub⟩ := List.mem_map.1 (by simpa using hnative)
    exact ⟨sub, hsub.symm⟩

/-- Nothing but the globals holds values at the start. -/
theorem Session.start_holds {settings : Settings} {v : Value}
    (h : (Session.start settings).store.Holds v) : (State.nativeGlobals settings.probes).Holds v := by
  cases h with
  | global h => exact h
  | lexical h =>
      obtain ⟨i, scope, name, var, hscope, hvar, rfl⟩ := h
      have hmem : scope ∈ #[Scope.empty none] := Array.mem_of_getElem? hscope
      obtain rfl : scope = .empty none := by simpa using hmem
      simp [Scope.binding?, Scope.empty] at hvar
  | pending h =>
      obtain ⟨fn, hook, hhook, _⟩ := h
      simp [Session.start, State.initial, State.store, Deferral.new, Pending.hooks,
        Pending.empty] at hhook
  | waiting hblocks h => exact absurd hblocks List.not_mem_nil
  | @kept name v h =>
      have h : (∅ : NameMap Value)[name]? = some v := h
      simp at h

theorem Session.start_sound (settings : Settings) : (Session.start settings).Sound := by
  refine ⟨fun v hv => ?_, List.pairwise_singleton _ _⟩
  obtain ⟨native, rfl, _⟩ := State.nativeGlobals_holds (Session.start_holds hv)
  exact .native native

/-- What a session comes to is sound, and so is what it gives. -/
structure Course.Soundness (s : State) (vs : List Value) (us : List CompiledUnit) : Prop where
  state : s.Sound
  values : ∀ v ∈ vs, v.Sound s
  units : ∀ unit ∈ us, unit.Sound s
  /-- No unit is under construction between two requests. -/
  idle : s.units = []

namespace Course

theorem Soundness.after (h : Soundness s vs us) (hst : s.After 0 t) : Soundness t vs us where
  state := hst.sound
  values v hv := (h.values v hv).outlived hst.outlived
  units unit hunit := (h.units unit hunit).settles hst.settles
  idle := by simpa [h.idle] using hst.units

theorem sound (h : Course s vs us) : Soundness s vs us := by
  induction h with
  | start settings =>
      exact ⟨Session.start_sound settings, fun _ hv => absurd hv List.not_mem_nil,
        fun _ hunit => absurd hunit List.not_mem_nil, rfl⟩
  | answered _ huses bound hrun ih =>
      rw [Request.run_eq] at hrun
      obtain ⟨hst, hanswer⟩ := (SoundParts.request (run_sound bound) bound ih.state
        (huses.sound ih.values ih.units)).value hrun
      have hafter := ih.after (hst.mono (Nat.zero_le _))
      refine ⟨hst.sound, fun v hv => ?_, fun unit hunit => ?_, hafter.idle⟩
      · exact (List.mem_append.1 hv).elim (hanswer.values v) (hafter.values v)
      · exact (List.mem_append.1 hunit).elim (hanswer.units unit) (hafter.units unit)
  | failed _ huses bound hrun ih =>
      rw [Request.run_eq] at hrun
      have hrequest := SoundParts.request (run_sound bound) bound ih.state
        (huses.sound ih.values ih.units)
      exact ih.after ((hrequest.error hrun).1.mono (Nat.zero_le _))
  | @global s vs us _ name v hv ih =>
      refine { ih with values := fun w hw => ?_ }
      rcases List.mem_cons.1 hw with rfl | hw
      · obtain ⟨cell, _, hcell⟩ := Option.bind_eq_some_iff.1 hv
        exact ih.state.values w (.global ⟨cell, hcell⟩)
      · exact ih.values w hw
  | addModule _ name source ih => exact ih.after (.quiet ih.state rfl rfl rfl rfl)
  | takeWarnings _ ih => exact ih.after (.quiet ih.state rfl rfl rfl rfl)
  | takeOutput _ ih => exact ih.after (.quiet ih.state rfl rfl rfl rfl)

/-- A unit that is compiled can be used from then on. -/
theorem compiled (h : Course s vs us) {source : String} {name path : Option String}
    {unit : CompiledUnit} (hrun : Session.compile bound source name path s = .value unit t) :
    Course t vs (unit :: us) := by
  have huses : (Request.compile source name path).Uses vs us := trivial
  have hanswer : (Request.compile source name path).run bound s = .value (.unit unit) t := by
    simp only [Request.run, map_eq_pure_bind, Run.bind_apply, Run.mapError, hrun, Run.pure_apply]
  exact .answered h huses bound hanswer

end Course

/-! ## What is at work -/

namespace Interpreter

variable {α β ε : Type}

/-- What becomes of a run depends on what becomes of a part at a state: it is another one if just
that were. -/
def DependsOn (again : Again) (body : Again → Run State ε β) (s : State) (work : Work α)
    (u : State) : Prop :=
  ∃ again' : Again, AgreeBut work u again again' ∧ body again' s ≠ body again s

/-- A run depends on a part if it is cut off with the part, and is not if the part fails. -/
theorem DependsOn.of_ends {again : Again} {body : Again → Run State ε β} {work : Work α}
    {e : EvalError}
    (hcutOff : ∀ again' : Again, AgreeBut work u again again' → again' work u = .cutOff →
      body again' s = .cutOff)
    (herror : ∀ again' : Again, AgreeBut work u again again' → again' work u = .error e u →
      body again' s ≠ .cutOff) : DependsOn again body s work u := by
  by_cases hend : body again s = .cutOff
  · have hagree : AgreeBut work u again (instead again work u (.error e u)) :=
      agreeBut_instead again work u (.error e u)
    exact ⟨_, hagree, hend ▸ herror _ hagree (instead_self again work u (.error e u))⟩
  · have hagree : AgreeBut work u again (instead again work u .cutOff) :=
      agreeBut_instead again work u .cutOff
    refine ⟨_, hagree, fun hsame => hend ?_⟩
    rw [← hsame, hcutOff _ hagree (instead_self again work u .cutOff)]

/-- What depends on sound work only, depends on no other. -/
theorem DependsOn.sound {body : Again → Run State ε β} {work : Work α}
    (h : DependsOn (run bound) body s work u)
    (hbody : ∀ again' : Again, SoundParts (run bound) again' → body again' s = body (run bound) s) :
    u.Sound ∧ work.Sound u := by
  obtain ⟨again', hagree, hdiffer⟩ := h
  by_contra hwork
  refine hdiffer (hbody again' (SoundParts.of_agree fun other t ht hother => ?_))
  by_contra hne
  obtain ⟨hsame, rfl⟩ := hagree other t (Ne.symm hne)
  cases hsame
  exact hwork ⟨ht, hother⟩

end Interpreter

/-- A part of a program that is at work at some point of a session, the state that it starts in, and
a bound on how deep it nests. -/
inductive AtWork : Nat → {α : Type} → Work α → State → Prop where
  /-- A request runs a part. -/
  | requested {bound : Nat} {s u : State} {vs : List Value} {us : List CompiledUnit}
      {α : Type} {work : Work α} (h : Course s vs us) {request : Request}
      (huses : request.Uses vs us)
      (hruns : DependsOn (run bound) (fun again => request.runWith bound again) s work u) :
      AtWork bound work u
  /-- A part runs another. -/
  | nested {bound : Nat} {s u : State} {α β : Type} {outer : Work β} {work : Work α}
      (h : AtWork (bound + 1) outer s)
      (hruns : DependsOn (run bound) (fun again => perform bound again outer) s work u) :
      AtWork bound work u

/-- A unit that is executed runs its body, in a frame and a scope of its own. -/
theorem AtWork.unit (h : Course s vs us) {unit : CompiledUnit} (hunit : unit ∈ us)
    {calls : CallStack} (hpush : s.calls.push ⟨unit.name, .unit, none⟩ = .ok calls) (bound : Nat) :
    AtWork bound (.block unit.body) { s with
      calls, currentUnit := some unit.id, env := s.env.pushDetached none } := by
  have huses : (Request.execute unit).Uses vs us := hunit
  refine .requested h huses (.of_ends (e := default) ?_ ?_)
  · intro again _ hend
    simp only [Request.runWith, execute, withFrame, pushFrame, hpush, inCodeOf, inDetachedScope,
      Run.bind_apply, Run.get_apply, Run.modify_apply, Run.ensuring, Run.mapError, hend,
      map_eq_pure_bind]
    rfl
  · intro again _ hend
    simp only [Request.runWith, execute, withFrame, pushFrame, hpush, inCodeOf, inDetachedScope,
      Run.bind_apply, Run.get_apply, Run.modify_apply, Run.ensuring, Run.mapError, hend,
      map_eq_pure_bind]
    exact fun hcutOff => by cases hcutOff

/-- All that a session runs is sound. -/
theorem AtWork.sound {α : Type} {work : Work α} (h : AtWork bound work s) :
    s.Sound ∧ work.Sound s := by
  induction h with
  | requested h huses hruns =>
      have hcourse := h.sound
      exact hruns.sound fun again' hagain' =>
        (hagain'.request _ hcourse.state (huses.sound hcourse.values hcourse.units)).same
  | @nested bound s u α β outer work _ hruns ih =>
      refine hruns.sound fun again' hagain' => ?_
      have hperform : SoundParts (perform bound (run bound)) (perform bound again') :=
        hagain'.perform
      exact (hperform outer s ih.1 ih.2).same

end TwoPhase
