import TwoPhase.Proofs.Course
import TwoPhase.Proofs.Discipline.Code

/-!
# Sessions within a discipline

A discipline that holds at some point of a session holds from there on, as long as what is asked of
the interpreter is of its kind (`Discipline.onward`).  It also holds wherever a part of a program
is at work meanwhile (`Involves.within`).
-/

namespace TwoPhase

open Interpreter
open Run (Agrees Keeps)
open Session (Request Answer RunError)

variable {P : Value → Prop} {s t u : State} {bound : Nat}

namespace Session

/-- A request with values of a kind.  A dispatch function may be called, and refused to be put
off. -/
def Request.Of (P : Value → Prop) : Request → Prop
  | call callee args => OrDispatch P callee ∧ ∀ arg ∈ args, P arg
  | defer callable _ => OrDispatch P callable
  | _ => True

theorem Request.of_all (request : Request) : request.Of fun _ => True := by
  cases request with
  | call => exact ⟨.inl trivial, fun _ _ => trivial⟩
  | defer => exact .inl trivial
  | _ => trivial

/-- How a session goes on with requests of one kind, while no texts are made loadable but as modules
of some names. -/
inductive Onward (puts : Request → Prop) (adds : String → Prop) (s : State) : State → Prop where
  | refl : Onward puts adds s s
  | answered {t u : State} (h : Onward puts adds s t) {request : Request} (hputs : puts request)
      (bound : Nat) {answer : Answer} (hrun : request.run bound t = .value answer u) :
      Onward puts adds s u
  | failed {t u : State} (h : Onward puts adds s t) {request : Request} (hputs : puts request)
      (bound : Nat) {e : RunError} (hrun : request.run bound t = .error e u) :
      Onward puts adds s u
  | addModule {t : State} (h : Onward puts adds s t) {name : String} (hadds : adds name)
      (source : String) : Onward puts adds s (Session.addModule name source t)
  | takeWarnings {t : State} (h : Onward puts adds s t) :
      Onward puts adds s (Session.takeWarnings t).2
  | takeOutput {t : State} (h : Onward puts adds s t) : Onward puts adds s (Session.takeOutput t).2

end Session

namespace Interpreter

variable {α β ε : Type}

/-! ## What is at work -/

/-- A part of a program that is at work at a state while a run goes on: the run depends on it, or on
a part that depends on it.  Given is how deep it may nest. -/
inductive Involves (body : Again → Run State ε β) (bound : Nat) (s : State) :
    Nat → {α : Type} → Work α → State → Prop where
  | runs {α : Type} {work : Work α} {u : State} (h : DependsOn (run bound) body s work u) :
      Involves body bound s bound work u
  | nested {n : Nat} {α γ : Type} {outer : Work γ} {work : Work α} {t u : State}
      (h : Involves body bound s (n + 1) outer t)
      (hruns : DependsOn (run n) (fun again => perform n again outer) t work u) :
      Involves body bound s n work u

/-- Something holds of all that becomes of a state while a run goes on: wherever a part of a program
is at work, and in the end. -/
structure Throughout (I : State → Prop) (body : Again → Run State ε β) (bound : Nat)
    (s : State) : Prop where
  value : ∀ {b t}, body (run bound) s = .value b t → I t
  error : ∀ {e t}, body (run bound) s = .error e t → I t
  atWork : ∀ {n : Nat} {α : Type} {work : Work α} {u}, Involves body bound s n work u → I u

namespace Discipline

variable {D : Discipline P} {rounds : Nat} {again again' : Again}

/-- What runs do with work of a kind depends on such work only. -/
theorem Parts.of_agree (hsame : ∀ {α : Type} (work : Work α) (s : State), D.Inv s → work.Of P →
    again work s = run bound work s) : D.Parts (run bound) again := by
  intro α work s hs hwork
  exact ⟨hsame work s hs hwork, (D.run_parts bound work s hs hwork).2⟩

end Discipline

/-- What depends on nothing but work of a kind, where a discipline holds, depends on no other. -/
theorem DependsOn.within {body : Again → Run State ε β} {work : Work α}
    (h : DependsOn (run bound) body s work u) (D : Discipline P)
    (hbody : ∀ again' : Again, D.Parts (run bound) again' →
      body again' s = body (run bound) s) : D.Inv u ∧ work.Of P := by
  obtain ⟨again', hagree, hdiffer⟩ := h
  by_contra hwork
  refine hdiffer (hbody again' (Discipline.Parts.of_agree fun other t ht hother => ?_))
  by_contra hne
  obtain ⟨hsame, rfl⟩ := hagree other t (Ne.symm hne)
  cases hsame
  exact hwork ⟨ht, hother⟩

/-- A discipline that a run keeps holds wherever a part is at work. -/
theorem Involves.within {body : Again → Run State ε β} {n : Nat} {work : Work α}
    (h : Involves body bound s n work u) (D : Discipline P)
    (hbody : ∀ again' : Again, D.Parts (run bound) again' →
      body again' s = body (run bound) s) : D.Inv u ∧ work.Of P := by
  induction h with
  | runs h => exact h.within D hbody
  | @nested n _ _ outer work t u _ hruns ih =>
      refine hruns.within D fun again' hagain' => ?_
      exact (hagain'.perform (fun s _ work => run_within n s work) outer t ih.1 ih.2).same

/-- Code that keeps a discipline keeps it throughout. -/
theorem Discipline.throughout (D : Discipline P) {body : Again → Run State ε β} {Q : β → Prop}
    (hbody : ∀ again' : Again, D.Parts (run bound) again' →
      D.Runs s (body (run bound)) (body again') Q) : Throughout D.Inv body bound s where
  value hend := D.inv ((hbody (run bound) (D.run_parts bound)).value hend).1
  error hend := D.inv ((hbody (run bound) (D.run_parts bound)).error hend).1
  atWork h := (h.within D fun again' hagain => (hbody again' hagain).same).1

/-! ## Requests -/

namespace Discipline

variable {D : Discipline P} {rounds : Nat} {again again' : Again}

namespace Parts

variable (h : D.Parts again again')
  (hwithin : ∀ s {α : Type} (work : Work α), Keeps (Within s) (again work))

include h hwithin

theorem compileWith (rounds : Nat) (hs : D.Inv s) (source : String) (name path : Option String) :
    D.Runs s
      (Run.mapError (Request.compileWith rounds again source name path) fun _ => RunError.compile)
      (Run.mapError (Request.compileWith rounds again' source name path) fun _ => RunError.compile)
      fun _ => True :=
  .mapError (.get (h.construct hwithin hs _ _ _ _)) _

omit h hwithin in
/-- What is asked for leads to an answer that is made of its value. -/
theorem answered {body body' : Eval α} {Q : α → Prop} {answer : α → Answer}
    (hbody : D.Runs s body body' Q) (hanswer : ∀ a, Q a → ∀ v ∈ (answer a).values, P v) :
    D.Runs s (answer <$> Run.mapError body fun _ => RunError.runtime)
      (answer <$> Run.mapError body' fun _ => RunError.runtime)
      fun answer => ∀ v ∈ answer.values, P v := by
  simp only [map_eq_pure_bind]
  exact (Runs.mapError hbody _).bind fun a t ht ha => .pure ht (hanswer a ha)

/-- A request of a kind is answered with values of the kind. -/
theorem request (rounds : Nat) {request : Request} (hs : D.Inv s) (hrequest : request.Of P) :
    D.Runs s (request.runWith rounds again) (request.runWith rounds again')
      fun answer => ∀ v ∈ answer.values, P v := by
  have hvalue : ∀ v : Value, P v → ∀ w ∈ (Answer.value v).values, P w := fun v hv w hw =>
    List.mem_singleton.1 hw ▸ hv
  have hnone : ∀ v ∈ Answer.done.values, P v := fun _ hv => absurd hv List.not_mem_nil
  cases request with
  | compile source name path =>
      simp only [Request.runWith, map_eq_pure_bind]
      exact (h.compileWith hwithin rounds hs source name path).bind fun unit t ht _ =>
        .pure ht fun _ hv => absurd hv List.not_mem_nil
  | execute unit => exact answered (h.execute hs unit) hvalue
  | runSource source =>
      simp only [Request.runWith, map_eq_pure_bind]
      refine Runs.bind ((h.compileWith hwithin rounds hs source none none).bind fun unit t ht _ =>
        Runs.mapError (h.execute ht unit) _) fun v t ht hv => .pure ht (hvalue v hv)
  | call callee args => exact answered (h.callValue hs hrequest.1 hrequest.2 _) hvalue
  | eval text => exact answered (h.evalString hwithin hs text) hvalue
  | require name => exact answered (h.require hwithin hs name) hvalue
  | defer callable after => exact answered (Runs.defer hs hrequest after) fun _ _ => hnone
  | lexStuff text => exact answered (Runs.lexStuff hs text) fun _ _ => hnone

end Parts

variable (D)

/-- What becomes of a request. -/
theorem request_run {request : Request} (hs : D.Inv s) (hrequest : request.Of P) (bound : Nat) :
    D.Runs s (request.run bound) (request.run bound) fun answer => ∀ v ∈ answer.values, P v := by
  rw [Request.run_eq]
  exact Parts.request (D.run_parts bound) (fun s _ work => run_within bound s work) bound hs hrequest

/-- A request comes to work of its kind only. -/
theorem request_involves {request : Request} (hs : D.Inv s) (hrequest : request.Of P) {n : Nat}
    {work : Work α} (h : Involves (fun again => request.runWith bound again) bound s n work u) :
    D.Inv u ∧ work.Of P :=
  h.within D fun _ hagain =>
    (hagain.request (fun s _ work => run_within bound s work) bound hs hrequest).same

/-- A discipline that holds at one point of a session holds from there on. -/
theorem onward {puts : Request → Prop} {adds : String → Prop}
    (hputs : ∀ request, puts request → request.Of P)
    (hadds : ∀ name source s, adds name → D.Inv s → D.Inv (Session.addModule name source s))
    (h : Session.Onward puts adds s t) (hs : D.Inv s) : D.Inv t := by
  induction h with
  | refl => exact hs
  | answered _ hrequest bound hrun ih =>
      exact D.inv ((D.request_run ih (hputs _ hrequest) bound).value hrun).1
  | failed _ hrequest bound hrun ih =>
      exact D.inv ((D.request_run ih (hputs _ hrequest) bound).error hrun).1
  | addModule _ hname source ih => exact hadds _ source _ hname ih
  | takeWarnings _ ih => exact D.inv (D.change ih (.quiet rfl rfl rfl))
  | takeOutput _ ih => exact D.inv (D.change ih (.quiet rfl rfl rfl))

end Discipline

end Interpreter

end TwoPhase
