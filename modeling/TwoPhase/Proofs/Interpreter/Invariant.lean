import TwoPhase.Session
import TwoPhase.Proofs.Triple

/-!
# Invariants of running code

Most of what running code does to the state is invisible to deferral and to the table of units: it
moves scopes, frames, lists of waiting blocks, output and the module table.  What remains is a short
list of operations, and an invariant that they keep is kept by every run (`run_keeps`).

Construction is on the list as one operation.  It runs the parser, which has a list of its own.
-/

namespace TwoPhase.Interpreter

open Run (Triple Keeps)

variable {α : Type}

/-- What deferral looks at, and the table of units. -/
structure Seen where
  globals : Globals
  units : List Construction
  depth : Nat
  deferral : Deferral DeferredBlock
  history : List Event
  records : UnitTable

def State.seen (s : State) : Seen :=
  ⟨s.globals, s.units, s.depth, s.deferral, s.history, s.records⟩

/-- Two states that differ only where deferral does not look. -/
def State.Alike (s t : State) : Prop := t.seen = s.seen

/-- An invariant that says nothing of what deferral does not look at. -/
structure Stable (I : State → Prop) : Prop where
  alike : ∀ {s t : State}, I s → s.Alike t → I t

/-- The operations that may change what deferral looks at keep an invariant. -/
structure Respects (rounds : Nat) (again : Again) (I : State → Prop) : Prop extends Stable I where
  nested : ∀ {α : Type} (work : Work α), Keeps I (again work)
  write : ∀ {s : State} (cell : CellRef) (value : Value), I s →
    I { s with globals := s.globals.set cell value }
  defer : ∀ (callable : Value) (after : Bool), Keeps I (defer callable after)
  splice : ∀ text : String, Keeps I (lexStuff text)
  clear : ∀ depth : Nat, Keeps I (clearDepth depth)
  construct : ∀ (name : String) (origin : UnitOrigin) (path : Option String) (source : String),
    Keeps I (construct rounds again name origin path source)

namespace Stable

variable {I : State → Prop} (h : Stable I)

include h

/-- A change that deferral does not see. -/
theorem neutral {f : State → State}
    (hf : ∀ s : State, s.Alike (f s)) :
    Keeps I (modify f : Eval PUnit) :=
  Keeps.update fun s hs => h.alike hs (hf s)

theorem neutralGet {f : State → α × State}
    (hf : ∀ s : State, s.Alike (f s).2) :
    Keeps I (modifyGet f : Eval α) :=
  Keeps.modifyGet fun s hs => h.alike hs (hf s)

/-! ## Entering and leaving

Code that leads from one property to others leads there from inside a frame or scope too, since
deferral does not see it entered and left. -/

section

variable {J F : State → Prop} {body : Eval α} (hJ : Stable J) (hF : Stable F)

omit h in
include hJ hF in
theorem guarded_triple {cleanup : State → State} (hbody : Triple I body (fun _ => J) (fun _ => F))
    (hf : ∀ s : State, s.Alike (cleanup s)) :
    Triple I (Run.ensuring body cleanup) (fun _ => J) (fun _ => F) :=
  Triple.ensuring (hbody.weaken (fun _ => id) (fun _ s hs => hJ.alike hs (hf s))
    (fun _ s hs => hF.alike hs (hf s)))

include hJ hF

theorem inCodeOf_triple {unit : Option UnitId} (hbody : Triple I body (fun _ => J) (fun _ => F)) :
    Triple I (Interpreter.inCodeOf unit body) (fun _ => J) (fun _ => F) := by
  cases unit with
  | none => exact hbody
  | some id =>
      refine Triple.bind (Q := fun _ => I) (fun _ hs => hs) fun _ => ?_
      exact Triple.bind (Q := fun _ => I) (fun s hs => h.alike hs rfl) fun _ =>
        guarded_triple hJ hF hbody fun _ => by rfl

theorem inDetachedScope_triple {parent : Option ScopeId}
    (hbody : Triple I body (fun _ => J) (fun _ => F)) :
    Triple I (Interpreter.inDetachedScope parent body) (fun _ => J) (fun _ => F) :=
  Triple.bind (Q := fun _ => I) (fun s hs => h.alike hs rfl) fun _ =>
    guarded_triple hJ hF hbody fun _ => by rfl

theorem withFrame_triple {frame : Frame} (hfail : ∀ s, I s → F s)
    (hbody : Triple I body (fun _ => J) (fun _ => F)) :
    Triple I (Interpreter.withFrame frame body) (fun _ => J) (fun _ => F) := by
  refine Triple.bind (Q := fun _ => I) ?_ fun _ => guarded_triple hJ hF hbody fun _ => by rfl
  intro s hs
  unfold pushFrame
  cases s.calls.push frame with
  | ok calls => exact h.alike hs rfl
  | error fault => exact hfail s hs

theorem inFrame_triple {frame : Frame} {parent : Option ScopeId} (hfail : ∀ s, I s → F s)
    (hbody : Triple I body (fun _ => J) (fun _ => F)) :
    Triple I (Interpreter.inFrame frame parent body) (fun _ => J) (fun _ => F) :=
  h.withFrame_triple hJ hF hfail (Triple.mapError (h.inDetachedScope_triple hJ hF hbody))

end

theorem inCodeOf {unit : Option UnitId} {body : Eval α} (hbody : Keeps I body) :
    Keeps I (inCodeOf unit body) :=
  h.inCodeOf_triple h h hbody

theorem inBlockScope {body : Eval α} (hbody : Keeps I body) : Keeps I (inBlockScope body) :=
  (h.neutral fun _ => by rfl).bind fun _ => guarded_triple h h hbody fun _ => by rfl

theorem inDetachedScope {parent : Option ScopeId} {body : Eval α} (hbody : Keeps I body) :
    Keeps I (inDetachedScope parent body) :=
  h.inDetachedScope_triple h h hbody

theorem withFrame {frame : Frame} {body : Eval α} (hbody : Keeps I body) :
    Keeps I (withFrame frame body) :=
  h.withFrame_triple h h (fun _ => id) hbody

theorem inFrame {frame : Frame} {parent : Option ScopeId} {body : Eval α} (hbody : Keeps I body) :
    Keeps I (inFrame frame parent body) :=
  h.inFrame_triple h h (fun _ => id) hbody

theorem freshId : Keeps I freshId := h.neutralGet fun _ => by rfl

theorem captureScope : Keeps I captureScope := h.neutralGet fun _ => by rfl

end Stable

namespace Respects

variable {rounds : Nat} {again : Again} {I : State → Prop} (h : Respects rounds again I)

theorem raises (fault : Fault) : Keeps I (raise fault : Eval α) := fun _ hs => hs

theorem orRaises (result : Except Fault α) : Keeps I (orRaise result) := by
  cases result with
  | ok value => exact Keeps.pure _
  | error fault => exact raises _

include h

/-! ## Units and modules -/

theorem execute (unit : CompiledUnit) : Keeps I (execute again unit) :=
  (h.withFrame (h.inCodeOf (h.inDetachedScope (h.nested _)))).bind fun _ => Keeps.pure _

theorem constructNow (name : String) (origin : UnitOrigin) (path : Option String)
    (source : String) : Keeps I (constructNow rounds again name origin path source) :=
  (h.construct name origin path source).mapError _

theorem evalString (text : String) : Keeps I (evalString rounds again text) :=
  (h.constructNow _ _ _ _).bind fun unit => h.execute unit

theorem findModuleFile (name : String) (dirs : List String) :
    Keeps I (findModuleFile name dirs) := by
  induction dirs with
  | nil => exact raises _
  | cons dir dirs ih =>
      refine (h.neutral fun _ => by rfl).bind fun _ => Keeps.get.bind fun s => ?_
      split
      · exact Keeps.pure _
      · exact raises _
      · exact ih

theorem load (name : String) (path : Option String) (source : String)
    (entry : Option ModuleEntry) : Keeps I (load rounds again name path source entry) := by
  refine (h.neutral fun _ => by rfl).bind fun _ => ?_
  refine (Keeps.attempt ((h.constructNow _ _ _ _).bind fun unit => h.execute unit)).bind
    fun result => ?_
  cases result with
  | ok value => exact Keeps.pure _
  | error e => exact (h.neutral fun _ => by rfl).bind fun _ => Keeps.throw _

theorem require (name : String) : Keeps I (require rounds again name) := by
  refine Keeps.get.bind fun s => ?_
  split
  · exact Keeps.pure _
  · exact h.load _ _ _ _
  · exact (h.findModuleFile _ _).bind fun found => h.load _ _ _ _

/-! ## Native subs -/

omit h in
theorem oneArg (name : String) (args : List Value) : Keeps I (oneArg name args) := by
  unfold Interpreter.oneArg
  split
  · exact Keeps.pure _
  · exact raises _

omit h in
theorem oneString (name : String) (args : List Value) : Keeps I (oneString name args) := by
  refine (oneArg name args).bind fun value => ?_
  split
  · exact Keeps.pure _
  · exact raises _

omit h in
theorem oneDepth (name : String) (args : List Value) : Keeps I (oneDepth name args) := by
  refine (oneArg name args).bind fun value => ?_
  split
  · split
    · exact raises _
    · exact Keeps.pure _
  · exact raises _

omit h in
theorem length (name : String) (args : List Value) : Keeps I (length name args) := by
  refine (oneArg name args).bind fun value => ?_
  split
  · exact Keeps.pure _
  · exact Keeps.pure _
  · exact raises _

theorem println (line : String) : Keeps I (println line) :=
  h.neutral fun _ => by rfl

theorem callBuiltin (sub : Builtin) (args : List Value) :
    Keeps I (callBuiltin rounds again sub args) := by
  cases sub with
  | print => exact (h.println _).bind fun _ => Keeps.pure _
  | atRuntime =>
      exact (oneArg _ _).bind fun callable => (h.defer callable _).bind fun _ => Keeps.pure _
  | afterRuntime =>
      exact (oneArg _ _).bind fun callable => (h.defer callable _).bind fun _ => Keeps.pure _
  | lexStuff => exact (oneString _ _).bind fun text => (h.splice text).bind fun _ => Keeps.pure _
  | clear => exact (oneDepth _ _).bind fun depth => (h.clear depth).bind fun _ => Keeps.pure _
  | eval => exact (oneString _ _).bind fun text => h.evalString text
  | require => exact (oneString _ _).bind fun name => h.require name
  | callers =>
      cases args with
      | nil => exact (h.neutral fun _ => by rfl).bind fun _ => Keeps.get.bind fun _ => Keeps.pure _
      | cons arg args => exact raises _
  | die => exact raises _
  | len => exact length _ _
  | str => exact (oneArg _ _).bind fun _ => Keeps.pure _

theorem callProbe (probe : Probe) (args : List Value) : Keeps I (callProbe again probe args) := by
  cases probe with
  | depth => exact Keeps.get.bind fun _ => Keeps.pure _
  | snapshot => exact Keeps.get.bind fun _ => Keeps.pure _
  | attempt =>
      cases args with
      | nil => exact raises _
      | cons callee args =>
          refine (h.nested _).attempt.bind fun result => ?_
          cases result with
          | ok value => exact Keeps.pure _
          | error e => exact Keeps.pure _
  | block => exact h.freshId.bind fun _ => Keeps.pure _
  | blockBody id text => exact (h.println _).bind fun _ => Keeps.pure _
  | global => exact Keeps.get.bind fun _ => Keeps.pure _
  | keep => exact (h.neutral fun _ => by rfl).bind fun _ => Keeps.pure _
  | kept => exact Keeps.get.bind fun _ => Keeps.pure _

theorem callNative (native : Native) (args : List Value) :
    Keeps I (callNative rounds again native args) := by
  cases native with
  | builtin sub => exact h.callBuiltin sub args
  | probe probe => exact h.callProbe probe args

/-! ## Calls -/

theorem scopedBlock (body : Block) : Keeps I (scopedBlock again body) :=
  h.inBlockScope (h.nested _)

theorem bindParams (params : List String) (args : List Value) :
    Keeps I (bindParams params args) := by
  induction params generalizing args with
  | nil => exact Keeps.pure _
  | cons param params ih =>
      cases args with
      | nil => exact Keeps.pure _
      | cons arg args =>
          exact (h.neutral fun _ => by rfl).bind fun _ => ih args

theorem callSub (sub : Sub) (args : List Value) (frame : Frame) :
    Keeps I (callSub again sub args frame) := by
  have hbody : Keeps I (Interpreter.inCodeOf sub.unit (Interpreter.inFrame frame sub.captured (do
      Interpreter.bindParams sub.function.params args
      Interpreter.scopedBlock again sub.function.body))) :=
    h.inCodeOf (h.inFrame ((h.bindParams _ _).bind fun _ => h.scopedBlock _))
  unfold Interpreter.callSub
  dsimp only
  split
  · exact (raises _).bind fun _ => hbody.bind fun flow => by cases flow <;> exact Keeps.pure _
  · exact hbody.bind fun flow => by cases flow <;> exact Keeps.pure _

theorem runDeferred (block : DeferredBlock) (span : Span) :
    Keeps I (runDeferred again block span) := by
  unfold Interpreter.runDeferred
  dsimp only
  split
  · exact h.callSub _ _ _
  · exact h.inFrame (h.nested _)
  · exact raises _

theorem runExits (span : Span) (result : Except EvalError Flow) (blocks : List DeferredBlock) :
    Keeps I (runExits again span result blocks) := by
  induction blocks generalizing result with
  | nil => exact Keeps.ofExcept _
  | cons block blocks ih =>
      refine (h.neutral fun _ => by rfl).bind fun _ => ?_
      exact (h.runDeferred block span).attempt.bind fun ended => ih _

theorem withExits (span : Span) {body : Eval Flow} (hbody : Keeps I body) :
    Keeps I (withExits again span body) := by
  refine (h.neutral fun _ => by rfl).bind fun _ => hbody.attempt.bind
    fun result => ?_
  exact (h.neutralGet fun _ => by rfl).bind fun blocks => h.runExits _ _ _

theorem reachHook (span : Span) (hook : Hook DeferredBlock) :
    Keeps I (reachHook again span hook) := by
  cases hook with
  | atRuntime block => exact (h.runDeferred block span).bind fun _ => Keeps.pure _
  | afterRuntime block => exact h.neutral fun _ => by rfl

theorem callDispatch (fn : DispatchFn) (span : Span) :
    Keeps I (callDispatch rounds again fn span) := by
  have hvisit : Keeps I (Pending.visitAll (fun s => s.deferral.pending) rounds fn
      (Interpreter.reachHook again span)) := by
    refine Keeps.iterate (fun index => Keeps.get.bind fun s => ?_) _ _
    split
    · exact Keeps.pure _
    · exact (h.reachHook _ _).bind fun _ => Keeps.pure _
  have hbody : Keeps I (do
      Interpreter.withFrame ⟨dispatchName, .dispatch, some span⟩ (traced
        (Pending.visitAll (fun s => s.deferral.pending) rounds fn
          (Interpreter.reachHook again span)))
      return Flow.normal .nil : Eval Flow) :=
    (h.withFrame (hvisit.mapError _)).bind fun _ => Keeps.pure _
  refine Keeps.get.bind fun s => ?_
  split
  · exact (h.withExits span hbody).bind fun _ => Keeps.pure _
  · exact hbody.bind fun _ => Keeps.pure _

theorem callValue (callee : Value) (args : List Value) (span : Span) :
    Keeps I (callValue rounds again callee args span) := by
  unfold Interpreter.callValue
  split
  · exact h.callSub _ _ _
  · exact h.nested _
  · split
    · exact h.callDispatch _ _
    · exact raises _
  · exact raises _

/-! ## Expressions -/

theorem exprs (values : Array Value) (es : List Expr) : Keeps I (exprs again values es) := by
  induction es generalizing values with
  | nil => exact Keeps.pure _
  | cons e es ih => exact (h.nested _).bind fun value => ih _

omit h in
theorem loadGlobal (cell : CellRef) : Keeps I (loadGlobal cell) := by
  refine Keeps.get.bind fun s => ?_
  split
  · exact raises _
  · exact Keeps.pure _
  · exact raises _

omit h in
theorem loadLexical (name : String) : Keeps I (loadLexical name) := by
  refine Keeps.get.bind fun s => ?_
  split
  · exact Keeps.pure _
  · exact raises _

theorem callee (e : Expr) : Keeps I (callee again e) := by
  unfold Interpreter.callee
  split
  · refine Keeps.get.bind fun s => ?_
    split
    · exact Keeps.pure _
    · exact Keeps.throw _
  · exact h.nested _

theorem closure (function : Function) : Keeps I (closure function) :=
  h.freshId.bind fun _ => h.captureScope.bind fun _ => Keeps.get.bind fun _ => Keeps.pure _

theorem exprValue (e : Expr) : Keeps I (exprValue rounds again e) := by
  cases e with
  | nil span => exact Keeps.pure _
  | bool span value => exact Keeps.pure _
  | int span value => exact Keeps.pure _
  | str span value => exact Keeps.pure _
  | list span items => exact (h.exprs _ _).bind fun _ => Keeps.pure _
  | lexical span name => exact loadLexical _
  | global span cell => exact loadGlobal _
  | call span target args =>
      exact (h.callee target).bind fun f => (h.exprs _ _).bind fun values => h.callValue _ _ _
  | closure span function => exact h.closure _
  | unary span op operand => exact (h.nested _).bind fun value => orRaises _
  | binary span op left right =>
      refine (h.nested _).bind fun a => ?_
      split
      · split
        · exact h.nested _
        · exact Keeps.pure _
      · split
        · exact Keeps.pure _
        · exact h.nested _
      · exact (h.nested _).bind fun b => orRaises _

theorem expr (e : Expr) : Keeps I (expr rounds again e) := (h.exprValue e).mapError _

/-! ## Statements -/

theorem assignLexical (span : Span) (name : String) (value : Value) :
    Keeps I (assignLexical span name value) := by
  refine Keeps.get.bind fun s => ?_
  split
  · exact h.neutral fun _ => by rfl
  · exact Keeps.throw _

theorem inner (body : Block) : Keeps I (inner again body) :=
  (h.scopedBlock body).bind fun flow => by cases flow <;> exact Keeps.pure _

theorem stmt (statement : Stmt) : Keeps I (stmt rounds again statement) := by
  cases statement with
  | define span name value =>
      exact (h.nested _).bind fun v => (h.neutral fun _ => by rfl).bind
        fun _ => Keeps.pure _
  | assignLexical span name value =>
      exact (h.nested _).bind fun v => (h.assignLexical _ _ _).bind fun _ => Keeps.pure _
  | assignGlobal span cell value =>
      exact (h.nested _).bind fun v => (Keeps.update fun s hs => h.write cell v hs).bind
        fun _ => Keeps.pure _
  | expr e => exact (h.nested _).bind fun _ => Keeps.pure _
  | ret span value =>
      cases value with
      | none => exact Keeps.pure _
      | some e => exact (h.nested _).bind fun _ => Keeps.pure _
  | block body => exact h.inner body
  | cond span test yes no =>
      refine (h.nested _).bind fun value => ?_
      split
      · exact h.inner yes
      · cases no with
        | none => exact Keeps.pure _
        | some body => exact h.inner body
  | loop span test body =>
      refine Keeps.iterate (fun _ => (h.nested _).bind fun value => ?_) _ _
      dsimp only
      split
      · exact Keeps.pure _
      · exact (h.scopedBlock body).bind fun flow => by cases flow <;> exact Keeps.pure _

theorem stmts (last : Value) (body : List Stmt) : Keeps I (stmts rounds again last body) := by
  induction body generalizing last with
  | nil => exact Keeps.pure _
  | cons s more ih =>
      refine (h.stmt s).bind fun flow => ?_
      cases flow with
      | normal value => exact ih value
      | ret value => exact Keeps.pure _

theorem block (b : Block) : Keeps I (block rounds again b) := h.withExits _ (h.stmts _ _)

/-- What the listed operations keep, one part of a program keeps. -/
theorem perform (work : Work α) : Keeps I (perform rounds again work) := by
  cases work with
  | expr e => exact h.expr e
  | block b => exact h.block b
  | call callee args span => exact h.callValue callee args span
  | native native args => exact h.callNative native args

end Respects

/-- What the listed operations keep as soon as nested parts keep it, every run keeps.  Nested parts
may need the invariant for other parameters. -/
theorem run_keeps {ι : Type} {I : ι → State → Prop}
    (h : ∀ bound, (∀ i {α : Type} (work : Work α), Keeps (I i) (run bound work)) →
      ∀ i, Respects bound (run bound) (I i)) (bound : Nat) (i : ι) (work : Work α) :
    Keeps (I i) (run bound work) := by
  induction bound generalizing α i with
  | zero => exact fun _ _ => trivial
  | succ bound ih =>
      rw [run_succ]
      exact (h bound (fun i _ work => ih i work) i).perform work

end TwoPhase.Interpreter
