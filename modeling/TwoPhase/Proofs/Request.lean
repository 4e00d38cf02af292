import TwoPhase.Session
import TwoPhase.Proofs.Likeness.Code

/-!
# Requests

What a program that embeds an interpreter can ask it to do, as one type.  Requests follow each other
as code does, so a request comes back to the stacks it found, whether it succeeds or not
(`Request.restores`).

A request runs parts of programs, as these run further parts.  What it does with given ways to run
them is a run too; the request itself runs them the way all code does.
-/

namespace TwoPhase

open Interpreter
open Run (Keeps Sim)

variable {K : Comparison} {s t : State}

namespace Session

/-- What a program asks of an interpreter. -/
inductive Request where
  /-- To construct a main unit, which may be given a name and the file that it was read from. -/
  | compile (source : String) (name path : Option String)
  | execute (unit : CompiledUnit)
  | runSource (source : String)
  | call (callee : Value) (args : List Value)
  | eval (text : String)
  | require (name : String)
  /-- To put a callable off, to the matching point of run time or to the exit of a block. -/
  | defer (callable : Value) (after : Bool)
  | lexStuff (text : String)

/-- What a request is answered with. -/
inductive Answer where
  | unit (unit : CompiledUnit)
  | value (value : Value)
  | done

namespace Request

/-- Does what is asked. -/
def run (bound : Nat) : Request → Run State RunError Answer
  | compile source name path =>
    .unit <$> Run.mapError (Session.compile bound source name path) fun _ => .compile
  | execute unit => .value <$> Run.mapError (Session.execute bound unit) fun _ => .runtime
  | runSource source => .value <$> Session.runSource bound source
  | call callee args => .value <$> Run.mapError (Session.call bound callee args) fun _ => .runtime
  | eval text =>
    .value <$> Run.mapError (evalString bound (Interpreter.run bound) text) fun _ => .runtime
  | require name =>
    .value <$> Run.mapError (Interpreter.require bound (Interpreter.run bound) name)
      fun _ => .runtime
  | defer callable after =>
    (fun _ => .done) <$> Run.mapError (Interpreter.defer callable after) fun _ => .runtime
  | lexStuff text => (fun _ => .done) <$> Run.mapError (Session.lexStuff text) fun _ => .runtime

/-- Constructs a main unit, with a given way to run nested parts. -/
def compileWith (rounds : Nat) (again : Again) (source : String) (name path : Option String) :
    Run State CompileError CompiledUnit := do
  let s ← get
  construct rounds again (name.getD s.mainUnit) .main path source

/-- Does what is asked, with a given way to run nested parts. -/
def runWith (rounds : Nat) (again : Again) : Request → Run State RunError Answer
  | compile source name path =>
    .unit <$> Run.mapError (compileWith rounds again source name path) fun _ => .compile
  | execute unit => .value <$> Run.mapError (Interpreter.execute again unit) fun _ => .runtime
  | runSource source => .value <$> do
    let unit ← Run.mapError (compileWith rounds again source none none) fun _ => .compile
    Run.mapError (Interpreter.execute again unit) fun _ => .runtime
  | call callee args =>
    .value <$> Run.mapError (callValue rounds again callee args (.point 0)) fun _ => .runtime
  | eval text => .value <$> Run.mapError (evalString rounds again text) fun _ => .runtime
  | require name =>
    .value <$> Run.mapError (Interpreter.require rounds again name) fun _ => .runtime
  | defer callable after =>
    (fun _ => .done) <$> Run.mapError (Interpreter.defer callable after) fun _ => .runtime
  | lexStuff text => (fun _ => .done) <$> Run.mapError (Interpreter.lexStuff text) fun _ => .runtime

/-- A request runs nested parts the way all code does. -/
theorem run_eq (bound : Nat) (request : Request) :
    request.run bound = request.runWith bound (Interpreter.run bound) := by
  cases request <;> rfl

end Request

/-! ## Likeness -/

/-- The same failure, up to spans and backtraces. -/
inductive RunError.Like (K : Comparison) : RunError → RunError → Prop where
  | compile {e f : CompileError} (h : CompileError.Like K e f) :
      RunError.Like K (.compile e) (.compile f)
  | runtime {e f : EvalError} (h : EvalError.Like K e f) : RunError.Like K (.runtime e) (.runtime f)

/-- The same answer, up to spans. -/
inductive Answer.Like (K : Comparison) : Answer → Answer → Prop where
  | unit {u v : CompiledUnit} (h : u.Like K v) : Answer.Like K (.unit u) (.unit v)
  | value {v w : Value} (h : v.Like K w) : Answer.Like K (.value v) (.value w)
  | done : Answer.Like K .done .done

theorem RunError.Like.refl : ∀ e : RunError, RunError.Like K e e
  | .compile e => .compile (like_refl K e)
  | .runtime e => .runtime (like_refl K e)

theorem Answer.Like.refl : ∀ a : Answer, a.Like K a
  | .unit u => .unit (like_refl K u)
  | .value v => .value (.same v)
  | .done => .done

theorem RunError.Like.eq (hexact : K.exact) (hframes : K.frames) {e f : RunError}
    (h : RunError.Like K e f) : e = f := by
  cases h with
  | compile h => rw [h.eq hexact hframes]
  | runtime h => rw [h.eq hexact hframes]

theorem Answer.Like.eq (hexact : K.exact) {a b : Answer} (h : a.Like K b) : a = b := by
  cases h with
  | unit h => rw [h.eq hexact]
  | value h => rw [h.eq hexact]
  | done => rfl

instance : HasLike RunError := ⟨RunError.Like, fun _ => .refl⟩
instance : HasLike Answer := ⟨Answer.Like, fun _ => .refl⟩

end Session

namespace Interpreter.Alike

open Session (Request RunError Answer)

variable {again again' : Again} {α : Type} [HasLike α]

/-- Code that is asked for follows other such code. -/
theorem answered {body body' : Eval α} {answer : α → Answer} (h : Alike K body body')
    (hanswer : ∀ {a b}, Like K a b → (answer a).Like K (answer b)) :
    Sim (running K) (aligned K) (answer <$> Run.mapError body fun _ => RunError.runtime)
      (answer <$> Run.mapError body' fun _ => RunError.runtime) := by
  rw [map_eq_pure_bind, map_eq_pure_bind]
  exact (h.mapError fun _ he => RunError.Like.runtime he).bind fun a b hab => .pure (hanswer hab)

variable (h : NestedAlike K again again') (rounds more : Nat)

include h

theorem compileWith (source : String) (name path : Option String) :
    Sim (running K) (aligned K) (Request.compileWith rounds again source name path)
      (Request.compileWith (rounds + more) again' source name path) := by
  refine .get fun s t hs => ?_
  rw [hs.mainUnit]
  exact construct h rounds more _ _ _ _

/-- A request follows itself, where the second run may have more rounds and room. -/
theorem request (request : Request) : Sim (running K) (aligned K) (request.runWith rounds again)
    (request.runWith (rounds + more) again') := by
  have hcompile : ∀ source name path, Sim (running K) (aligned K)
      (Run.mapError (Request.compileWith rounds again source name path) fun _ => RunError.compile)
      (Run.mapError (Request.compileWith (rounds + more) again' source name path)
        fun _ => RunError.compile) := fun source name path =>
    (compileWith h rounds more source name path).mapError fun _ he => RunError.Like.compile he
  cases request with
  | compile source name path =>
      simp only [Request.runWith, map_eq_pure_bind]
      exact (hcompile source name path).bind fun _ _ hunit => .pure (Answer.Like.unit hunit)
  | execute unit => exact answered (execute h (like_refl K unit)) fun hv => .value hv
  | runSource source =>
      simp only [Request.runWith, map_eq_pure_bind]
      refine Sim.bind ((hcompile source none none).bind fun _ _ hunit =>
        (execute h hunit).mapError fun _ he => RunError.Like.runtime he) fun _ _ hv => .pure ?_
      exact Answer.Like.value hv
  | call callee args =>
      exact answered (callValue h rounds more (.same callee) (like_refl K args) (.refl _))
        fun hv => .value hv
  | eval text => exact answered (evalString h rounds more text) fun hv => .value hv
  | require name => exact answered (require h rounds more name) fun hv => .value hv
  | defer callable after => exact answered (defer (.same callable) after) fun _ => .done
  | lexStuff text => exact answered (lexStuff text) fun _ => .done

end Interpreter.Alike

/-! ## Restoration -/

/-- The comparison in which everything counts. -/
def Comparison.strict (aligned : Prop) : Comparison := ⟨True, True, aligned, 0, 0, 0⟩

/-- A request leaves what it enters. -/
theorem Session.Request.restores (bound : Nat) (request : Session.Request) (s : State) :
    Keeps (Restored s) (request.run bound) := by
  rw [run_eq]
  exact (Alike.request (run_alike (.strict False) bound 0) bound 0 request).moves s

end TwoPhase
