import TwoPhase.Proofs.Interpreter.Deferral
import TwoPhase.Proofs.Request

/-!
# Where errors get their backtraces

| Code                  | Errors that leave it                                     |
|-----------------------|----------------------------------------------------------|
| an expression         | have a backtrace                                         |
| a statement, a block  | have a backtrace, unless a block put off was not entered |
| a call, a native sub  | have a backtrace, unless they were raised in this frame  |

An expression gives errors that pass it a backtrace, and so do all frames but those of units.  What
runs inside the innermost of these runs in its frame, so an error that comes there without a
backtrace was raised in that frame, and gets the frames that were live (`OfCall.attached`).

A unit that a call executes is the exception: an error may leave its frame without a backtrace, and
then gets one that lacks this frame.
-/

namespace TwoPhase

namespace CallStack

theorem attachBacktrace_of_some (c : CallStack) {e : EvalError} {b : Backtrace}
    (h : e.backtrace = some b) : c.attachBacktrace e = e := by
  simp [attachBacktrace, h]

theorem attachBacktrace_of_none {c : CallStack} {e : EvalError} (h : e.backtrace = none)
    (hframes : c.frames ≠ []) :
    c.attachBacktrace e = { e with backtrace := some ⟨c.frames⟩ } := by
  have hdepth : c.depth ≠ 0 := by rw [c.depth_eq]; exact mt List.length_eq_zero_iff.1 hframes
  simp [attachBacktrace, h, isEmpty, hdepth, capture]

end CallStack

namespace Interpreter

open Run (Triple)

variable {α β : Type} {frames outer : List Frame} {frame : Frame} {e : EvalError} {s : State}

/-! ## Errors on their way -/

/-- A fault that keeps a block put off, which is given no arguments, from being entered. -/
inductive Barred : Fault → Prop where
  | arity (name : String) (expected : Nat) : Barred (.arity name expected 0)
  | notCallable (typeName : String) : Barred (.notCallable typeName)
  | callDepth (limit : Nat) : Barred (.callDepth limit)

/-- A fault that is raised outside of all expressions: this one, or that of a lexical name which is
assigned to where it is not defined. -/
def Exposed (fault : Fault) : Prop :=
  Barred fault ∨ ∃ name, fault = .undefinedVariable (.lexical name)

/-- An error raised in some frames that has no backtrace yet. -/
structure Untraced (frames : List Frame) (e : EvalError) : Prop where
  backtrace : e.backtrace = none
  frames : e.frames = frames

/-- An error that was raised on top of some frames and has a backtrace. -/
inductive Traced (outer : List Frame) (e : EvalError) : Prop where
  /-- The backtrace has all frames that were live. -/
  | complete (houter : outer <:+ e.frames) (hbacktrace : e.backtrace = some ⟨e.frames⟩)
  /-- It lacks the frame of the unit that the error was raised in, outside of all expressions. -/
  | short {unit : Frame} {rest : List Frame} (hframes : e.frames = unit :: rest)
      (hunit : unit.kind = .unit) (hexposed : Exposed e.kind) (houter : outer <:+ rest)
      (hbacktrace : e.backtrace = some ⟨rest⟩)

/-- An error that has met no expression in the frames that it was raised in. -/
structure Bare (frames : List Frame) (e : EvalError) : Prop extends Untraced frames e where
  exposed : Exposed e.kind
  span : Barred e.kind → e.span = none

/-- An error that leaves statements. -/
def OfCode (frames : List Frame) (e : EvalError) : Prop := Traced frames e ∨ Bare frames e

/-- An error that leaves a call: a native sub has no frame of its own, and that of a unit gives no
backtrace. -/
def OfCall (frames : List Frame) (e : EvalError) : Prop :=
  Traced frames e ∨ Untraced frames e ∨
    ∃ unit : Frame, unit.kind = .unit ∧ Untraced (unit :: frames) e ∧ Exposed e.kind

theorem Traced.leave (h : Traced (frame :: frames) e) : Traced frames e := by
  have hsuffix : frames <:+ frame :: frames := List.suffix_cons frame frames
  cases h with
  | complete houter hbacktrace => exact .complete (hsuffix.trans houter) hbacktrace
  | short hframes hunit hexposed houter hbacktrace =>
      exact .short hframes hunit hexposed (hsuffix.trans houter) hbacktrace

theorem Traced.ofCode (h : Traced frames e) : OfCode frames e := .inl h

theorem Traced.ofCall (h : Traced frames e) : OfCall frames e := .inl h

theorem Untraced.ofCall (h : Untraced frames e) : OfCall frames e := .inr (.inl h)

theorem Untraced.raised (hframes : s.calls.frames = frames) (fault : Fault) :
    Untraced frames (s.raised fault) := ⟨rfl, hframes⟩

theorem OfCode.barred {fault : Fault} (hbarred : Barred fault) (hframes : s.calls.frames = frames) :
    OfCode frames (s.raised fault) :=
  .inr ⟨.raised hframes fault, .inl hbarred, fun _ => rfl⟩

theorem OfCode.ofCall (h : OfCode frames e) : OfCall frames e :=
  h.imp_right fun h => .inl h.toUntraced

/-- An error that leaves a unit may still have no backtrace. -/
theorem OfCode.leaveUnit (h : OfCode (frame :: frames) e) (hunit : frame.kind = .unit) :
    OfCall frames e :=
  h.imp Traced.leave fun h => .inr ⟨frame, hunit, h.toUntraced, h.exposed⟩

/-- An error without a backtrace was raised in the frames at work, and takes these, or in a unit
right on top of them. -/
theorem OfCall.attached {calls : CallStack} (h : OfCall frames e) (hcalls : calls.frames = frames)
    (hne : frames ≠ []) : Traced frames (calls.attachBacktrace e) := by
  subst hcalls
  rcases h with htraced | huntraced | ⟨unit, hunit, huntraced, hexposed⟩
  · have hbacktrace : ∃ b, e.backtrace = some b := by
      cases htraced with
      | complete _ hbacktrace => exact ⟨_, hbacktrace⟩
      | short _ _ _ _ hbacktrace => exact ⟨_, hbacktrace⟩
    obtain ⟨b, hbacktrace⟩ := hbacktrace
    rw [calls.attachBacktrace_of_some hbacktrace]
    exact htraced
  · rw [CallStack.attachBacktrace_of_none huntraced.backtrace hne]
    refine .complete ?_ ?_ <;> simp [huntraced.frames]
  · rw [CallStack.attachBacktrace_of_none huntraced.backtrace hne]
    exact .short huntraced.frames hunit hexposed List.suffix_rfl rfl

theorem Untraced.locate (h : Untraced frames e) (span : Span) :
    Untraced frames (s.locate span e) := ⟨h.backtrace, h.frames⟩

theorem OfCall.locate (h : OfCall frames e) (span : Span) : OfCall frames (s.locate span e) := by
  rcases h with htraced | huntraced | ⟨unit, hunit, huntraced, hexposed⟩
  · cases htraced with
    | complete houter hbacktrace => exact .inl (.complete houter hbacktrace)
    | short hframes hunit hexposed houter hbacktrace =>
        exact .inl (.short hframes hunit hexposed houter hbacktrace)
  · exact (huntraced.locate span).ofCall
  · exact .inr (.inr ⟨unit, hunit, huntraced.locate span, hexposed⟩)

/-! ## Runs in frames -/

/-- Code that runs in some frames, leaves none behind, and fails with certain errors only. -/
abbrev Ends (frames : List Frame) (E : EvalError → Prop) (body : Eval α) : Prop :=
  Triple (·.calls.frames = frames) body (fun _ t => t.calls.frames = frames)
    fun e t => t.calls.frames = frames ∧ E e

namespace Ends

variable {E E' : EvalError → Prop} {body : Eval α}

theorem mono (h : Ends frames E body) (hE : ∀ e, E e → E' e) : Ends frames E' body :=
  h.weaken (fun _ => id) (fun _ _ => id) fun e _ he => ⟨he.1, hE e he.2⟩

theorem pure (a : α) : Ends frames E (Pure.pure a) := fun _ hs => hs

theorem bind {next : α → Eval β} (h : Ends frames E body) (hnext : ∀ a, Ends frames E (next a)) :
    Ends frames E (body >>= next) :=
  Triple.bind h hnext

theorem get {next : State → Eval α} (h : ∀ s : State, s.calls.frames = frames →
    Ends frames E (next s)) : Ends frames E (MonadState.get >>= next) :=
  fun s hs => h s hs s hs

theorem update {f : State → State} (hf : ∀ s, (f s).calls = s.calls) :
    Ends frames E (modify f : Eval PUnit) :=
  fun s hs => (congrArg CallStack.frames (hf s)).trans hs

theorem modifyGet {f : State → α × State} (hf : ∀ s, (f s).2.calls = s.calls) :
    Ends frames E (MonadState.modifyGet f : Eval α) :=
  fun s hs => (congrArg CallStack.frames (hf s)).trans hs

theorem throw (h : E e) : Ends frames E (MonadExcept.throw e : Eval α) := fun _ hs => ⟨hs, h⟩

theorem raise {fault : Fault} (h : ∀ s : State, s.calls.frames = frames → E (s.raised fault)) :
    Ends frames E (raise fault : Eval α) :=
  fun s hs => ⟨hs, h s hs⟩

theorem attempt {next : Except EvalError α → Eval β} (h : Ends frames E body)
    (hnext : ∀ result, (∀ e, result = .error e → E e) → Ends frames E' (next result)) :
    Ends frames E' (Run.attempt body >>= next) := by
  refine Triple.bind (Q := fun result t => (∀ e, result = .error e → E e) ∧ t.calls.frames = frames)
    (Triple.attempt (h.weaken (fun _ => id) (fun _ _ ht => ⟨nofun, ht⟩) fun e _ he => ?_))
    fun result => Triple.assume (hnext result)
  exact ⟨fun e' he' => Except.error.inj he' ▸ he.2, he.1⟩

theorem ensuring {cleanup : State → State} (h : Ends frames E body)
    (hcleanup : ∀ s, (cleanup s).calls = s.calls) : Ends frames E (Run.ensuring body cleanup) :=
  Triple.ensuring (h.weaken (fun _ => id)
    (fun _ t ht => (congrArg CallStack.frames (hcleanup t)).trans ht)
    fun _ t he => ⟨(congrArg CallStack.frames (hcleanup t)).trans he.1, he.2⟩)

theorem ofExcept {result : Except EvalError α} (h : ∀ e, result = .error e → E e) :
    Ends frames E (Run.ofExcept result) := by
  intro s hs
  cases result with
  | ok a => exact hs
  | error e => exact ⟨hs, h e rfl⟩

theorem iterate {step : α → Eval (Run.Step α β)} (h : ∀ a, Ends frames E (step a)) (rounds : Nat)
    (a : α) : Ends frames E (Run.iterate rounds step a) :=
  Triple.iterate (I := fun _ t => t.calls.frames = frames) (fun a => (h a).weaken (fun _ => id)
    (fun result _ ht => by cases result <;> exact ht) fun _ _ => id) rounds a

/-! ## Backtraces -/

theorem traced (h : Ends frames (OfCall frames) body) (hne : frames ≠ []) :
    Ends frames (Traced frames) (traced body) :=
  Triple.mapError (h.weaken (fun _ => id) (fun _ _ => id)
    fun _ _ he => ⟨he.1, he.2.attached he.1 hne⟩)

theorem located {span : Span} (h : Ends frames (OfCall frames) body) (hne : frames ≠ []) :
    Ends frames (Traced frames) (located span body) :=
  Triple.mapError (h.weaken (fun _ => id) (fun _ _ => id)
    fun _ _ he => ⟨he.1, (he.2.locate span).attached he.1 hne⟩)

/-! ## Entering and leaving -/

theorem inCodeOf {unit : Option UnitId} (h : Ends frames E body) :
    Ends frames E (inCodeOf unit body) := by
  cases unit with
  | none => exact h
  | some id =>
      refine get fun _ _ => bind (update fun _ => by rfl) fun _ => ensuring h fun _ => by rfl

theorem inBlockScope (h : Ends frames E body) : Ends frames E (inBlockScope body) :=
  bind (update fun _ => by rfl) fun _ => ensuring h fun _ => by rfl

theorem inDetachedScope {parent : Option ScopeId} (h : Ends frames E body) :
    Ends frames E (inDetachedScope parent body) :=
  bind (update fun _ => by rfl) fun _ => ensuring h fun _ => by rfl

/-- A frame that cannot be pushed keeps code from being entered. -/
theorem withFrame (h : Ends (frame :: frames) E' body) (hE : ∀ e, E' e → E e)
    (hbarred : ∀ (s : State) fault, s.calls.frames = frames → Barred fault → E (s.raised fault)) :
    Ends frames E (withFrame frame body) := by
  refine Triple.bind (Q := fun _ t => t.calls.frames = frame :: frames) (fun s hs => ?_) fun _ =>
    Triple.ensuring (h.weaken (fun _ => id) (fun _ t ht => ?_) fun e t he => ?_)
  · unfold pushFrame
    rcases s.calls.push_cases frame with ⟨limit, _, _, hpush⟩ | ⟨_, hpush⟩
    · rw [hpush]
      exact ⟨hs, hbarred s _ hs (.callDepth limit)⟩
    · rw [hpush]
      exact congrArg (frame :: ·) hs
  · simp [CallStack.pop, ht]
  · exact ⟨by simp [CallStack.pop, he.1], hE e he.2⟩

/-- All frames but those of units give errors that leave them a backtrace. -/
theorem inFrame {parent : Option ScopeId}
    (h : Ends (frame :: frames) (OfCall (frame :: frames)) body) :
    Ends frames (OfCode frames) (inFrame frame parent body) :=
  withFrame (traced (inDetachedScope h) (List.cons_ne_nil _ _)) (fun _ he => he.leave.ofCode)
    fun _ _ hs hbarred => .barred hbarred hs

end Ends

/-! ## Parts of programs -/

/-- The errors that leave a part of a program. -/
def Work.Fails (frames : List Frame) : {α : Type} → Work α → EvalError → Prop
  | _, .expr _ => Traced frames
  | _, .block _ => OfCode frames
  | _, .call .. => OfCall frames
  | _, .native .. => OfCall frames

/-- Nested parts fail as they should in any frames, and constructing leaves no frames behind. -/
structure TracedParts (rounds : Nat) (again : Again) : Prop where
  nested : ∀ {frames : List Frame} {α : Type} (work : Work α), frames ≠ [] →
    Ends frames (work.Fails frames) (again work)
  construct : ∀ (frames : List Frame) (name : String) (origin : UnitOrigin) (path : Option String)
    (source : String), Run.Keeps (·.calls.frames = frames)
      (construct rounds again name origin path source)

namespace TracedParts

variable {rounds : Nat} {again : Again} (h : TracedParts rounds again) (hne : frames ≠ [])

theorem raises (fault : Fault) : Ends frames (OfCall frames) (raise fault : Eval α) :=
  .raise fun _ hs => (Untraced.raised hs fault).ofCall

theorem orRaises (result : Except Fault α) : Ends frames (OfCall frames) (orRaise result) := by
  cases result with
  | ok value => exact .pure _
  | error fault => exact raises _

/-! ## Units and modules -/

include h in
theorem execute (unit : CompiledUnit) : Ends frames (OfCall frames) (execute again unit) := by
  have hblock : Ends (⟨unit.name, .unit, none⟩ :: frames) _ (again (.block unit.body)) :=
    h.nested (.block unit.body) (List.cons_ne_nil _ _)
  exact (Ends.withFrame (.inCodeOf (.inDetachedScope hblock)) (fun _ he => he.leaveUnit rfl)
    fun _ fault hs _ => (Untraced.raised hs fault).ofCall).bind fun _ => .pure _

include h in
theorem constructNow (name : String) (origin : UnitOrigin) (path : Option String)
    (source : String) :
    Ends frames (OfCall frames) (constructNow rounds again name origin path source) :=
  Triple.mapError ((h.construct frames name origin path source).weaken (fun _ => id) (fun _ _ => id)
    fun _ _ ht => ⟨ht, (Untraced.raised ht _).ofCall⟩)

include h in
theorem evalString (text : String) : Ends frames (OfCall frames) (evalString rounds again text) :=
  (h.constructNow _ _ _ _).bind fun unit => h.execute unit

theorem findModuleFile (name : String) (dirs : List String) :
    Ends frames (OfCall frames) (findModuleFile name dirs) := by
  induction dirs with
  | nil => exact raises _
  | cons dir dirs ih =>
      refine (Ends.update fun _ => by rfl).bind fun _ => .get fun s _ => ?_
      split
      · exact .pure _
      · exact raises _
      · exact ih

include h in
theorem load (name : String) (path : Option String) (source : String)
    (entry : Option ModuleEntry) :
    Ends frames (OfCall frames) (load rounds again name path source entry) := by
  refine (Ends.update fun _ => by rfl).bind fun _ => Ends.attempt
    ((h.constructNow name .required path source).bind fun unit => h.execute unit)
    fun result hresult => ?_
  cases result with
  | ok value => exact .pure _
  | error e => exact (Ends.update fun _ => by rfl).bind fun _ => .throw (hresult e rfl)

include h in
theorem require (name : String) : Ends frames (OfCall frames) (require rounds again name) := by
  refine .get fun s _ => ?_
  split
  · exact .pure _
  · exact h.load _ _ _ _
  · exact (findModuleFile _ _).bind fun found => h.load _ _ _ _

/-! ## Native subs -/

theorem oneArg (name : String) (args : List Value) :
    Ends frames (OfCall frames) (oneArg name args) := by
  unfold Interpreter.oneArg
  split
  · exact .pure _
  · exact raises _

theorem oneString (name : String) (args : List Value) :
    Ends frames (OfCall frames) (oneString name args) := by
  refine (oneArg name args).bind fun value => ?_
  split
  · exact .pure _
  · exact raises _

theorem oneDepth (name : String) (args : List Value) :
    Ends frames (OfCall frames) (oneDepth name args) := by
  refine (oneArg name args).bind fun value => ?_
  split
  · split
    · exact raises _
    · exact .pure _
  · exact raises _

theorem length (name : String) (args : List Value) :
    Ends frames (OfCall frames) (length name args) := by
  refine (oneArg name args).bind fun value => ?_
  split
  · exact .pure _
  · exact .pure _
  · exact raises _

theorem defer (callable : Value) (after : Bool) :
    Ends frames (OfCall frames) (defer callable after) := by
  intro s hs
  rcases defer_cases callable after s with ⟨fault, hdefer, _⟩ | ⟨hook, t, hput, hdefer, _⟩
  · rw [hdefer]
    exact ⟨hs, (Untraced.raised hs _).ofCall⟩
  · rw [hdefer]
    cases hput with
    | joined => exact hs
    | opened _ _ hinjected =>
        obtain ⟨_, _, _, _, _, rfl⟩ := hinjected
        exact hs

theorem lexStuff (text : String) : Ends frames (OfCall frames) (lexStuff text) := by
  intro s hs
  rcases lexStuff_cases text s with ⟨error, hlex⟩ | ⟨t, hinjected, hlex⟩
  · rw [hlex]
    exact ⟨hs, (Untraced.raised hs _).ofCall⟩
  · rw [hlex]
    obtain ⟨_, _, _, _, _, rfl⟩ := hinjected
    exact hs

theorem clearDepth (depth : Nat) : Ends frames (OfCall frames) (clearDepth depth) := by
  intro s hs
  rcases clearDepth_cases depth s with ⟨error, hclear⟩ | ⟨fn, _, hclear⟩
  · rw [hclear]
    exact ⟨hs, (Untraced.raised hs _).ofCall⟩
  · rw [hclear]
    exact hs

theorem println (line : String) : Ends frames (OfCall frames) (println line) :=
  .update fun _ => by rfl

include h in
theorem callBuiltin (sub : Builtin) (args : List Value) :
    Ends frames (OfCall frames) (callBuiltin rounds again sub args) := by
  cases sub with
  | print => exact (println _).bind fun _ => .pure _
  | atRuntime =>
      exact (oneArg _ _).bind fun callable => (defer callable _).bind fun _ => .pure _
  | afterRuntime =>
      exact (oneArg _ _).bind fun callable => (defer callable _).bind fun _ => .pure _
  | lexStuff => exact (oneString _ _).bind fun text => (lexStuff text).bind fun _ => .pure _
  | clear => exact (oneDepth _ _).bind fun depth => (clearDepth depth).bind fun _ => .pure _
  | eval => exact (oneString _ _).bind fun text => h.evalString text
  | require => exact (oneString _ _).bind fun name => h.require name
  | callers =>
      cases args with
      | nil => exact (Ends.update fun _ => by rfl).bind fun _ => .get fun _ _ => .pure _
      | cons arg args => exact raises _
  | die => exact raises _
  | len => exact length _ _
  | str => exact (oneArg _ _).bind fun _ => .pure _

include h hne

theorem callProbe (probe : Probe) (args : List Value) :
    Ends frames (OfCall frames) (callProbe again probe args) := by
  cases probe with
  | depth => exact .get fun _ _ => .pure _
  | snapshot => exact .get fun _ _ => .pure _
  | attempt =>
      cases args with
      | nil => exact raises _
      | cons callee args =>
          refine Ends.attempt (h.nested (.call callee args (.point 0)) hne) fun result _ => ?_
          cases result with
          | ok value => exact .pure _
          | error e => exact .pure _
  | block => exact (Ends.modifyGet fun _ => by rfl).bind fun _ => .pure _
  | blockBody id text => exact (println _).bind fun _ => .pure _
  | global => exact .get fun _ _ => .pure _
  | keep => exact (Ends.update fun _ => by rfl).bind fun _ => .pure _
  | kept => exact .get fun _ _ => .pure _

theorem callNative (native : Native) (args : List Value) :
    Ends frames (OfCall frames) (callNative rounds again native args) := by
  cases native with
  | builtin sub => exact h.callBuiltin sub args
  | probe probe => exact h.callProbe hne probe args

/-! ## Calls -/

theorem scopedBlock (body : Block) : Ends frames (OfCode frames) (scopedBlock again body) :=
  .inBlockScope (h.nested (.block body) hne)

omit h hne in
theorem bindParams {E : EvalError → Prop} (params : List String) (args : List Value) :
    Ends frames E (bindParams params args) := by
  induction params generalizing args with
  | nil => exact .pure _
  | cons param params ih =>
      cases args with
      | nil => exact .pure _
      | cons arg args => exact (Ends.update fun _ => by rfl).bind fun _ => ih args

omit hne in
/-- A sub may refuse the number of its arguments before it has a frame. -/
theorem callSub {E : EvalError → Prop} (sub : Sub) (args : List Value) (frame : Frame)
    (hcode : ∀ e, OfCode frames e → E e)
    (harity : ∀ s : State, s.calls.frames = frames →
      E (s.raised (.arity sub.name sub.function.params.length args.length))) :
    Ends frames E (callSub again sub args frame) := by
  have hbody : Ends frames E (Interpreter.inCodeOf sub.unit (Interpreter.inFrame frame sub.captured
      (do
        Interpreter.bindParams sub.function.params args
        Interpreter.scopedBlock again sub.function.body))) := by
    refine .inCodeOf ((Ends.inFrame ((bindParams _ _).bind fun _ => ?_)).mono hcode)
    exact (h.scopedBlock (List.cons_ne_nil _ _) _).mono fun _ he => he.ofCall
  unfold Interpreter.callSub
  dsimp only
  split
  · exact (Ends.raise harity).bind fun _ => hbody.bind fun flow => by cases flow <;> exact .pure _
  · exact hbody.bind fun flow => by cases flow <;> exact .pure _

omit hne in
/-- A block put off is entered, or fails outside of all expressions. -/
theorem runDeferred (block : DeferredBlock) (span : Span) :
    Ends frames (OfCode frames) (runDeferred again block span) := by
  unfold Interpreter.runDeferred
  dsimp only
  split
  · rename_i sub _
    exact h.callSub _ _ _ (fun _ => id) fun _ hs => .barred (.arity _ _) hs
  · rename_i native _
    exact .inFrame (h.nested (.native native []) (List.cons_ne_nil _ _))
  · exact .raise fun _ hs => .barred (.notCallable _) hs

omit hne in
theorem runExits (span : Span) (result : Except EvalError Flow) (blocks : List DeferredBlock)
    (hresult : ∀ e, result = .error e → OfCode frames e) :
    Ends frames (OfCode frames) (runExits again span result blocks) := by
  induction blocks generalizing result with
  | nil => exact .ofExcept hresult
  | cons block blocks ih =>
      refine (Ends.update fun _ => by rfl).bind fun _ => ?_
      refine Ends.attempt (h.runDeferred block span) fun ended hended => ih _ fun e he => ?_
      -- the first error is kept
      cases result with
      | error first => exact hresult e he
      | ok flow =>
          cases ended with
          | ok value => cases he
          | error later => exact hended e (by simpa using he)

omit hne in
theorem withExits (span : Span) {body : Eval Flow} (hbody : Ends frames (OfCode frames) body) :
    Ends frames (OfCode frames) (withExits again span body) :=
  (Ends.update fun _ => by rfl).bind fun _ => .attempt hbody fun result hresult =>
    (Ends.modifyGet fun _ => by rfl).bind fun blocks => h.runExits span result blocks hresult

omit hne in
theorem reachHook (span : Span) (hook : Hook DeferredBlock) :
    Ends frames (OfCode frames) (reachHook again span hook) := by
  cases hook with
  | atRuntime block => exact (h.runDeferred block span).bind fun _ => .pure _
  | afterRuntime block => exact .update fun _ => by rfl

omit hne in
theorem callDispatch (fn : DispatchFn) (span : Span) :
    Ends frames (OfCode frames) (callDispatch rounds again fn span) := by
  have hvisit : ∀ frames, Ends frames (OfCode frames) (Pending.visitAll
      (fun s => s.deferral.pending) rounds fn (Interpreter.reachHook again span)) := by
    refine fun frames => .iterate (fun index => .get fun s _ => ?_) _ _
    split
    · exact .pure _
    · exact (h.reachHook _ _).bind fun _ => .pure _
  have hbody : Ends frames (OfCode frames) (do
      Interpreter.withFrame ⟨dispatchName, .dispatch, some span⟩ (Interpreter.traced
        (Pending.visitAll (fun s => s.deferral.pending) rounds fn
          (Interpreter.reachHook again span)))
      return Flow.normal .nil : Eval Flow) := by
    refine Ends.bind ?_ fun _ => .pure _
    have htraced := Ends.traced ((hvisit (⟨dispatchName, .dispatch, some span⟩ :: frames)).mono
      fun _ he => he.ofCall) (List.cons_ne_nil _ _)
    exact Ends.withFrame htraced (fun _ he => he.leave.ofCode) fun _ _ hs hbarred =>
      .barred hbarred hs
  refine .get fun s _ => ?_
  split
  · exact (h.withExits span hbody).bind fun _ => .pure _
  · exact hbody.bind fun _ => .pure _

theorem callValue (callee : Value) (args : List Value) (span : Span) :
    Ends frames (OfCall frames) (callValue rounds again callee args span) := by
  unfold Interpreter.callValue
  split
  · exact h.callSub _ _ _ (fun _ he => he.ofCall) fun _ hs => (Untraced.raised hs _).ofCall
  · rename_i native
    exact h.nested (.native native args) hne
  · split
    · exact (h.callDispatch _ _).mono fun _ he => he.ofCall
    · exact raises _
  · exact raises _

/-! ## Expressions -/

theorem nestedExpr (e : Expr) : Ends frames (Traced frames) (again (.expr e)) :=
  h.nested (.expr e) hne

theorem nestedValue (e : Expr) : Ends frames (OfCall frames) (again (.expr e)) :=
  (h.nestedExpr hne e).mono fun _ he => he.ofCall

theorem exprs (values : Array Value) (es : List Expr) :
    Ends frames (OfCall frames) (exprs again values es) := by
  induction es generalizing values with
  | nil => exact .pure _
  | cons e es ih => exact (h.nestedValue hne e).bind fun value => ih _

omit h hne in
theorem loadGlobal (cell : CellRef) : Ends frames (OfCall frames) (loadGlobal cell) := by
  refine .get fun s _ => ?_
  split
  · exact raises _
  · exact .pure _
  · exact raises _

omit h hne in
theorem loadLexical (name : String) : Ends frames (OfCall frames) (loadLexical name) := by
  refine .get fun s _ => ?_
  split
  · exact .pure _
  · exact raises _

theorem callee (e : Expr) : Ends frames (OfCall frames) (callee again e) := by
  unfold Interpreter.callee
  split
  · refine .get fun s hs => ?_
    split
    · exact .pure _
    · exact .throw ((Untraced.raised hs _).locate _).ofCall
  · exact h.nestedValue hne _

omit h hne in
theorem closure (function : Function) : Ends frames (OfCall frames) (closure function) :=
  (Ends.modifyGet fun _ => by rfl).bind fun _ => (Ends.modifyGet fun _ => by rfl).bind fun _ =>
    .get fun _ _ => .pure _

theorem exprValue (e : Expr) : Ends frames (OfCall frames) (exprValue rounds again e) := by
  cases e with
  | nil span => exact .pure _
  | bool span value => exact .pure _
  | int span value => exact .pure _
  | str span value => exact .pure _
  | list span items => exact (h.exprs hne _ _).bind fun _ => .pure _
  | lexical span name => exact loadLexical _
  | global span cell => exact loadGlobal _
  | call span target args =>
      exact (h.callee hne target).bind fun f => (h.exprs hne _ _).bind fun values =>
        h.callValue hne _ _ _
  | closure span function => exact closure _
  | unary span op operand => exact (h.nestedValue hne _).bind fun value => orRaises _
  | binary span op left right =>
      refine (h.nestedValue hne _).bind fun a => ?_
      split
      · split
        · exact h.nestedValue hne _
        · exact .pure _
      · split
        · exact .pure _
        · exact h.nestedValue hne _
      · exact (h.nestedValue hne _).bind fun b => orRaises _

theorem expr (e : Expr) : Ends frames (Traced frames) (expr rounds again e) :=
  .located (h.exprValue hne e) hne

/-! ## Statements -/

omit h hne in
theorem assignLexical (span : Span) (name : String) (value : Value) :
    Ends frames (OfCode frames) (assignLexical span name value) := by
  refine .get fun s hs => ?_
  split
  · exact .update fun _ => by rfl
  · exact .throw (.inr ⟨(Untraced.raised hs _).locate _, .inr ⟨name, rfl⟩, nofun⟩)

theorem inner (body : Block) : Ends frames (OfCode frames) (inner again body) :=
  (h.scopedBlock hne body).bind fun flow => by cases flow <;> exact .pure _

/-- An expression in a statement. -/
theorem inStmt (e : Expr) : Ends frames (OfCode frames) (again (.expr e)) :=
  (h.nestedExpr hne e).mono fun _ he => he.ofCode

theorem stmt (statement : Stmt) : Ends frames (OfCode frames) (stmt rounds again statement) := by
  cases statement with
  | define span name value =>
      exact (h.inStmt hne _).bind fun v => (Ends.update fun _ => by rfl).bind fun _ => .pure _
  | assignLexical span name value =>
      exact (h.inStmt hne _).bind fun v => (assignLexical _ _ _).bind fun _ => .pure _
  | assignGlobal span cell value =>
      exact (h.inStmt hne _).bind fun v => (Ends.update fun _ => by rfl).bind fun _ => .pure _
  | expr e => exact (h.inStmt hne _).bind fun _ => .pure _
  | ret span value =>
      cases value with
      | none => exact .pure _
      | some e => exact (h.inStmt hne _).bind fun _ => .pure _
  | block body => exact h.inner hne body
  | cond span test yes no =>
      refine (h.inStmt hne _).bind fun value => ?_
      split
      · exact h.inner hne yes
      · cases no with
        | none => exact .pure _
        | some body => exact h.inner hne body
  | loop span test body =>
      refine .iterate (fun _ => (h.inStmt hne _).bind fun value => ?_) _ _
      dsimp only
      split
      · exact .pure _
      · exact (h.scopedBlock hne body).bind fun flow => by cases flow <;> exact .pure _

theorem stmts (last : Value) (body : List Stmt) :
    Ends frames (OfCode frames) (stmts rounds again last body) := by
  induction body generalizing last with
  | nil => exact .pure _
  | cons s more ih =>
      refine (h.stmt hne s).bind fun flow => ?_
      cases flow with
      | normal value => exact ih value
      | ret value => exact .pure _

theorem block (b : Block) : Ends frames (OfCode frames) (block rounds again b) :=
  h.withExits _ (h.stmts hne _ _)

theorem perform (work : Work α) :
    Ends frames (work.Fails frames) (perform rounds again work) := by
  cases work with
  | expr e => exact h.expr hne e
  | block b => exact h.block hne b
  | call callee args span => exact h.callValue hne callee args span
  | native native args => exact h.callNative hne native args

end TracedParts

/-- Constructing leaves no frames behind. -/
theorem construct_frames (bound : Nat) (frames : List Frame) (name : String) (origin : UnitOrigin)
    (path : Option String) (source : String) :
    Run.Keeps (·.calls.frames = frames) (construct bound (run bound) name origin path source) := by
  intro s hs
  have hmoves := (Alike.construct (run_alike (.strict False) bound 0) bound 0 name origin path
    source).moves s
  exact (hmoves.weaken (fun _ => id) (fun _ _ ht => ht.frames.trans hs)
    fun _ _ ht => ht.frames.trans hs) s (.refl s)

/-- The parts of a program fail as they should, however deep they nest. -/
theorem run_traced (bound : Nat) : TracedParts bound (run bound) := by
  induction bound with
  | zero => exact ⟨fun _ _ _ _ => trivial, construct_frames 0⟩
  | succ bound ih =>
      refine ⟨fun work hne => ?_, construct_frames (bound + 1)⟩
      rw [run_succ]
      exact ih.perform hne work

end Interpreter

end TwoPhase
