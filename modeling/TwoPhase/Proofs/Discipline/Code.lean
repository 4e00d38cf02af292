import TwoPhase.Proofs.Discipline.Construct
import TwoPhase.Proofs.Sound.Native

/-!
# Code within a discipline

Every part of a program keeps a discipline as soon as the parts inside it do, so every run keeps it
(`run_parts`).
-/

namespace TwoPhase.Interpreter

open Run (Agrees Keeps)

/-- Code runs as a block that others may wait for: they run when its statements have ended. -/
theorem withExits_apply (again : Again) (span : Span) (body : Eval Flow) (s : State) :
    withExits again span body s =
      match body s.opened with
      | .value flow t => runExits again span (.ok flow) (t.exits.headD []) t.closed
      | .error e t => runExits again span (.error e) (t.exits.headD []) t.closed
      | .cutOff => .cutOff := by
  simp only [withExits, openExits, closeExits, Run.bind_apply, Run.modify_apply, Run.attempt,
    Run.modifyGet_apply, State.opened, State.closed]
  cases body { s with exits := [] :: s.exits } <;> rfl

/-- Hooks that wait run one after the other. -/
theorem runExits_cons (again : Again) (span : Span) (result : Except EvalError Flow)
    (block : DeferredBlock) (blocks : List DeferredBlock) (s : State) :
    runExits again span result (block :: blocks) s =
      match runDeferred again block span (s.invoke block) with
      | .value _ t => runExits again span result blocks t
      | .error e t => runExits again span (result.bind fun _ => .error e) blocks t
      | .cutOff => .cutOff := by
  simp only [runExits, Run.bind_apply, Run.modify_apply, Run.attempt]
  cases runDeferred again block span (s.invoke block) with
  | value v t => cases result <;> rfl
  | error e t => cases result <;> rfl
  | cutOff => rfl

/-- What operators give is of every kind. -/
theorem Kind.atomic {P : Value → Prop} (hP : Kind P) {v : Value} (h : v.Atomic) : P v := by
  cases h with
  | nil => exact hP.nil
  | bool b => exact hP.bool b
  | int n => exact hP.int n
  | str text => exact hP.str text

namespace Discipline

variable {P : Value → Prop} {D : Discipline P} {s t : State} {rounds : Nat} {again again' : Again}

theorem Runs.operator (hs : D.Inv s) {result : Except Fault Value} (h : SimpleResult result) :
    D.Runs s (Interpreter.orRaise result) (Interpreter.orRaise result) P := by
  refine Runs.orRaise hs ?_
  rintro v rfl
  exact D.kind.atomic h

/-! ## Native subs -/

namespace Runs

variable {args : List Value} (hs : D.Inv s)

include hs

theorem oneArg (hargs : ∀ arg ∈ args, P arg) (name : String) :
    D.Runs s (oneArg name args) (oneArg name args) P := by
  unfold Interpreter.oneArg
  split
  · exact pure hs (hargs _ List.mem_cons_self)
  · exact raise hs

theorem oneString (hargs : ∀ arg ∈ args, P arg) (name : String) :
    D.Runs s (oneString name args) (oneString name args) fun _ => True := by
  refine (oneArg hs hargs name).bind fun value t ht _ => ?_
  split
  · exact pure ht trivial
  · exact raise ht

theorem oneDepth (hargs : ∀ arg ∈ args, P arg) (name : String) :
    D.Runs s (oneDepth name args) (oneDepth name args) fun _ => True := by
  refine (oneArg hs hargs name).bind fun value t ht _ => ?_
  dsimp only
  split
  · split
    · exact raise ht
    · exact pure ht trivial
  · exact raise ht

theorem length (hargs : ∀ arg ∈ args, P arg) (name : String) :
    D.Runs s (length name args) (length name args) P := by
  refine (oneArg hs hargs name).bind fun value t ht _ => ?_
  split
  · exact pure ht (D.kind.int _)
  · exact pure ht (D.kind.int _)
  · exact raise ht

theorem println (line : String) : D.Runs s (println line) (println line) fun _ => True :=
  quiet hs rfl rfl rfl

/-- What is put off is of the kind, or no callable at all. -/
theorem defer {callable : Value} (hcallable : OrDispatch P callable) (after : Bool) :
    D.Runs s (defer callable after) (defer callable after) fun _ => True := by
  refine ⟨rfl, ?_⟩
  rcases hcallable with hcallable | ⟨fn, rfl⟩
  · rcases defer_cases callable after s with ⟨fault, h, _⟩ | ⟨hook, t, hput, h, hhook⟩ <;> rw [h]
    · exact ⟨D.refl hs, trivial⟩
    · exact ⟨D.change hs (.putOff (hhook ▸ hcallable) hput), trivial⟩
  · exact ⟨D.refl hs, trivial⟩

theorem lexStuff (text : String) : D.Runs s (lexStuff text) (lexStuff text) fun _ => True := by
  refine ⟨rfl, ?_⟩
  rcases lexStuff_cases text s with ⟨e, h⟩ | ⟨t, hinjected, h⟩ <;> rw [h]
  · exact ⟨D.refl hs, trivial⟩
  · obtain ⟨unit, outer, warnings, _, _, rfl⟩ := hinjected
    exact ⟨D.change hs (.quiet rfl rfl rfl), trivial⟩

theorem clearDepth (depth : Nat) :
    D.Runs s (clearDepth depth) (clearDepth depth) fun _ => True := by
  refine ⟨rfl, ?_⟩
  rcases clearDepth_cases depth s with ⟨e, h⟩ | ⟨fn, _, h⟩ <;> rw [h]
  · exact ⟨D.refl hs, trivial⟩
  · exact ⟨D.change hs (.cleared depth), trivial⟩

end Runs

namespace Parts

variable (h : D.Parts again again')
  (hwithin : ∀ s {α : Type} (work : Work α), Keeps (Within s) (again work))

section

variable {args : List Value} (hs : D.Inv s) (hargs : ∀ arg ∈ args, P arg)

include h hs hargs

include hwithin in
theorem callBuiltin (sub : Builtin) :
    D.Runs s (callBuiltin rounds again sub args) (callBuiltin rounds again' sub args) P := by
  cases sub with
  | print => exact (Runs.println hs _).bind fun _ t ht _ => .pure ht D.kind.nil
  | atRuntime =>
      refine (Runs.oneArg hs hargs _).bind fun callable t ht hcallable => ?_
      exact (Runs.defer ht (.inl hcallable) _).bind fun _ u hu _ => .pure hu D.kind.nil
  | afterRuntime =>
      refine (Runs.oneArg hs hargs _).bind fun callable t ht hcallable => ?_
      exact (Runs.defer ht (.inl hcallable) _).bind fun _ u hu _ => .pure hu D.kind.nil
  | lexStuff =>
      refine (Runs.oneString hs hargs _).bind fun text t ht _ => ?_
      exact (Runs.lexStuff ht text).bind fun _ u hu _ => .pure hu D.kind.nil
  | clear =>
      refine (Runs.oneDepth hs hargs _).bind fun depth t ht _ => ?_
      exact (Runs.clearDepth ht depth).bind fun _ u hu _ => .pure hu D.kind.nil
  | eval =>
      exact (Runs.oneString hs hargs _).bind fun text t ht _ => h.evalString hwithin ht text
  | require =>
      exact (Runs.oneString hs hargs _).bind fun name t ht _ => h.require hwithin ht name
  | callers =>
      cases args with
      | nil =>
          refine (Runs.quiet hs rfl rfl rfl).bind fun _ t ht _ =>
            .get (.pure ht (D.kind.list fun v hv => ?_))
          obtain ⟨name, _, rfl⟩ := List.mem_map.1 (List.mem_toArray.1 hv)
          exact D.kind.str name
      | cons arg args => exact Runs.raise hs
  | die => exact Runs.raise hs
  | len => exact Runs.length hs hargs _
  | str => exact (Runs.oneArg hs hargs _).bind fun v t ht _ => .pure ht (D.kind.str _)

omit hargs in
/-- Probes are of no kind but that of all values, so whatever they give is of the kind. -/
theorem callProbe {probe : Probe} (hprobe : P (.native (.probe probe))) :
    D.Runs s (callProbe again probe args) (callProbe again' probe args) P := by
  have hall : ∀ v, P v := D.kind.probe hprobe
  cases probe with
  | depth => exact .get (.pure hs (hall _))
  | snapshot => exact .get (.pure hs (hall _))
  | attempt =>
      cases args with
      | nil => exact Runs.raise hs
      | cons callee args =>
          have hcall := h (.call callee args (.point 0)) s hs ⟨.inl (hall _), fun _ _ => hall _⟩
          refine (Runs.attempt hcall).bind fun result t ht _ => ?_
          cases result with
          | ok v => exact .pure ht (hall _)
          | error e => exact .pure ht (hall _)
  | block =>
      have hfresh : D.Runs s freshId freshId fun _ => True :=
        .modifyGet hs (.quiet rfl rfl rfl) trivial
      exact hfresh.bind fun _ t ht _ => .pure ht (hall _)
  | blockBody id text => exact (Runs.println hs _).bind fun _ t ht _ => .pure ht (hall _)
  | global => exact .get (.pure hs (hall _))
  | keep =>
      exact (Runs.change hs (.keep _ (hall _))).bind fun _ t ht _ => .pure ht (hall _)
  | kept => exact .get (.pure hs (hall _))

include hwithin in
theorem callNative {native : Native} (hnative : P (.native native)) :
    D.Runs s (callNative rounds again native args) (callNative rounds again' native args) P := by
  cases native with
  | builtin sub => exact h.callBuiltin hwithin hs hargs sub
  | probe probe => exact h.callProbe hs hnative

end

/-! ## Calls -/

section

variable (hs : D.Inv s)

include hs

omit hs in
theorem bindParams (hs : D.Inv s) (params : List String) {args : List Value}
    (hargs : ∀ arg ∈ args, P arg) :
    D.Runs s (bindParams params args) (bindParams params args) fun _ => True := by
  induction params generalizing args s with
  | nil => exact .pure hs trivial
  | cons param params ih =>
      cases args with
      | nil => exact .pure hs trivial
      | cons arg args =>
          have harg := hargs arg List.mem_cons_self
          refine (Runs.change hs (.rescope fun v hv => ?_)).bind fun _ t ht _ =>
            ih ht fun other hother => hargs other (List.mem_cons_of_mem _ hother)
          exact (State.holds_define hv).imp_right (by rintro rfl; exact harg)

include h

theorem scopedBlock (body : Block) :
    D.Runs s (scopedBlock again body) (scopedBlock again' body) fun flow => P flow.value :=
  .inBlockScope hs fun t ht => h (.block body) t ht trivial

theorem callSub (sub : Sub) {args : List Value} (hargs : ∀ arg ∈ args, P arg) (frame : Frame) :
    D.Runs s (callSub again sub args frame) (callSub again' sub args frame) P := by
  have hbody : D.Runs s
      (inCodeOf sub.unit (inFrame frame sub.captured (do
        Interpreter.bindParams sub.function.params args
        Interpreter.scopedBlock again sub.function.body)))
      (inCodeOf sub.unit (inFrame frame sub.captured (do
        Interpreter.bindParams sub.function.params args
        Interpreter.scopedBlock again' sub.function.body))) fun flow => P flow.value := by
    refine .inCodeOf hs fun t ht => .inFrame ht fun u hu => ?_
    exact (bindParams hu _ hargs).bind fun _ v hv _ => h.scopedBlock hv _
  unfold Interpreter.callSub
  dsimp only
  split
  · exact Runs.bind (Q := fun _ => False) (Runs.raise hs) fun _ _ _ hfalse => hfalse.elim
  · refine hbody.bind fun flow t ht hflow => ?_
    cases flow with
    | ret value => exact .pure ht hflow
    | normal value => exact .pure ht D.kind.nil

theorem runDeferred {block : DeferredBlock} (hblock : P block.callable) (span : Span) :
    D.Runs s (runDeferred again block span) (runDeferred again' block span) P := by
  unfold Interpreter.runDeferred
  dsimp only
  split
  · exact h.callSub hs _ (fun _ harg => absurd harg List.not_mem_nil) _
  · rename_i native hnative
    refine .inFrame hs fun t ht => h (.native native []) t ht ⟨?_, nofun⟩
    rwa [← hnative]
  · exact Runs.raise hs

/-! ## Blocks that wait -/

omit hs in
/-- Hooks run one after the other, whatever came of those before. -/
theorem runExits (hs : D.Inv s) {result : Except EvalError Flow} {blocks : List DeferredBlock}
    (hblocks : ∀ block ∈ blocks, P block.callable)
    (hresult : ∀ flow, result = .ok flow → P flow.value) (span : Span) :
    Agrees (fun s u => Invoking D.Leads s blocks u) (fun _ _ => True) s
      (runExits again span result blocks) (runExits again' span result blocks)
      fun flow _ => P flow.value := by
  induction blocks generalizing s result with
  | nil =>
      refine .ofExcept .nil ?_
      cases result with
      | ok flow => exact hresult flow rfl
      | error e => trivial
  | cons block blocks ih =>
      have hrun := h.runDeferred (D.invokes block hs) (hblocks block List.mem_cons_self) span
      have hrest : ∀ {t : State} {next : Except EvalError Flow}, D.Leads (s.invoke block) t →
          (∀ flow, next = .ok flow → P flow.value) →
          Agrees (fun _ u => Invoking D.Leads s (block :: blocks) u) (fun _ _ => True) t
            (Interpreter.runExits again span next blocks)
            (Interpreter.runExits again' span next blocks) fun flow _ => P flow.value :=
        fun ht hnext => .weaken (ih (D.inv ht)
          (fun other hother => hblocks other (List.mem_cons_of_mem _ hother)) hnext)
          (fun _ hu => .cons ht hu) (fun _ _ _ hflow => hflow) fun _ _ _ _ => trivial
      simp only [Agrees, runExits_cons, hrun.same]
      cases hend : Interpreter.runDeferred again block span (s.invoke block) with
      | value v t => exact hrest (hrun.value hend).1 hresult
      | error e t =>
          refine hrest (hrun.error hend).1 fun flow hflow => ?_
          cases result <;> cases hflow
      | cutOff => exact ⟨rfl, trivial⟩

/-- Code that others may wait for. -/
theorem withExits {body body' : Eval Flow} (span : Span)
    (hbody : ∀ t, D.Inv t → D.Runs t body body' fun flow => P flow.value) :
    D.Runs s (withExits again span body) (withExits again' span body')
      fun flow => P flow.value := by
  have hopened := hbody _ (D.opens hs)
  have hrest : ∀ {t : State} {result : Except EvalError Flow}, D.Leads s.opened t →
      (∀ flow, result = .ok flow → P flow.value) →
      Agrees (fun _ u => D.Leads s u) (fun _ _ => True) t.closed
        (Interpreter.runExits again span result (t.exits.headD []))
        (Interpreter.runExits again' span result (t.exits.headD []))
        fun flow _ => P flow.value := by
    intro t result ht hresult
    refine .weaken (h.runExits (D.closes hs ht) (fun block hblock => ?_) hresult span)
      (fun _ hu => D.exits hs ht hu) (fun _ _ _ hflow => hflow) fun _ _ _ _ => trivial
    cases hexits : t.exits with
    | nil => simp [hexits] at hblock
    | cons waiting outer =>
        have hmem : waiting ∈ t.exits := hexits ▸ List.mem_cons_self
        rw [hexits] at hblock
        exact (D.keeping (D.inv ht)).waiting hmem block hblock
  simp only [Agrees, withExits_apply, hopened.same]
  cases hend : body s.opened with
  | value flow t =>
      obtain ⟨ht, hflow⟩ := hopened.value hend
      exact hrest ht (by rintro _ ⟨⟩; exact hflow)
  | error e t => exact hrest (hopened.error hend).1 (by rintro _ ⟨⟩)
  | cutOff => exact ⟨rfl, trivial⟩

/-! ## Dispatch -/

theorem reachHook {hook : Hook DeferredBlock} (hhook : P hook.block.callable) (span : Span) :
    D.Runs s (reachHook again span hook) (reachHook again' span hook) fun _ => True := by
  cases hook with
  | atRuntime block => exact (h.runDeferred hs hhook span).bind fun _ t ht _ => .pure ht trivial
  | afterRuntime block => exact Runs.change hs (.await hhook)

/-- The hooks of a list are visited in order. -/
theorem visitAll (fn : DispatchFn) (span : Span) :
    D.Runs s
      (Pending.visitAll (fun s => s.deferral.pending) rounds fn (Interpreter.reachHook again span))
      (Pending.visitAll (fun s => s.deferral.pending) rounds fn (Interpreter.reachHook again' span))
      fun _ => True := by
  refine Agrees.iterate (J := fun _ t => D.Inv t) (fun index t ht => .get ?_) rounds 0 hs
  split
  · exact Agrees.pure (D.refl ht) trivial
  · rename_i hook hat
    have hhook : P hook.block.callable :=
      (D.keeping ht).pending ⟨fn, hook, Array.mem_of_getElem? hat, rfl⟩
    exact Agrees.bind (h.reachHook ht hhook span) fun _ u hu _ =>
      .pure (D.refl (D.inv hu)) (D.inv hu)

theorem callDispatch (fn : DispatchFn) (span : Span) :
    D.Runs s (callDispatch rounds again fn span) (callDispatch rounds again' fn span) P := by
  have hbody : ∀ t, D.Inv t → D.Runs t
      (do
        withFrame ⟨dispatchName, .dispatch, some span⟩ (traced (Pending.visitAll
          (fun s => s.deferral.pending) rounds fn (Interpreter.reachHook again span)))
        return Flow.normal .nil)
      (do
        withFrame ⟨dispatchName, .dispatch, some span⟩ (traced (Pending.visitAll
          (fun s => s.deferral.pending) rounds fn (Interpreter.reachHook again' span)))
        return Flow.normal .nil)
      fun flow => P flow.value := by
    intro t ht
    refine Runs.bind (.withFrame ht fun u hu _ => .mapError (h.visitAll hu fn span) _)
      fun _ v hv _ => .pure hv D.kind.nil
  refine .get ?_
  split
  · exact (h.withExits hs span hbody).bind fun flow u hu hflow => .pure hu hflow
  · exact (hbody s hs).bind fun flow u hu hflow => .pure hu hflow

theorem callValue {callee : Value} {args : List Value} (hcallee : OrDispatch P callee)
    (hargs : ∀ arg ∈ args, P arg) (span : Span) :
    D.Runs s (callValue rounds again callee args span)
      (callValue rounds again' callee args span) P := by
  unfold Interpreter.callValue
  split
  · exact h.callSub hs _ hargs _
  · rename_i native
    refine h (.native native args) s hs ⟨?_, hargs⟩
    exact hcallee.resolve_right (by rintro ⟨fn, ⟨⟩⟩)
  · split
    · exact h.callDispatch hs _ span
    · exact Runs.raise hs
  · exact Runs.raise hs

/-! ## Expressions -/

omit hs in
theorem exprs (hs : D.Inv s) (es : List Expr) {values : Array Value} (hvalues : ∀ v ∈ values, P v) :
    D.Runs s (exprs again values es) (exprs again' values es) fun values => ∀ v ∈ values, P v := by
  induction es generalizing s values with
  | nil => exact .pure hs hvalues
  | cons e es ih =>
      refine (h (.expr e) s hs trivial).bind fun value t ht hvalue => ih ht fun v hv => ?_
      rcases Array.mem_push.1 hv with hv | rfl
      · exact hvalues v hv
      · exact hvalue

omit h in
/-- A global gives values of the kind only: a dispatch function is not loaded. -/
theorem loadGlobal (cell : CellRef) : D.Runs s (loadGlobal cell) (loadGlobal cell) P := by
  refine .get ?_
  split
  · exact Runs.raise hs
  · rename_i v hdispatch hv
    refine .pure hs (((D.keeping hs).global hv).resolve_right ?_)
    rintro ⟨fn, rfl⟩
    exact hdispatch fn rfl
  · exact Runs.raise hs

omit h in
theorem loadLexical (name : String) : D.Runs s (loadLexical name) (loadLexical name) P := by
  refine .get ?_
  split
  · rename_i v hv
    exact .pure hs ((D.keeping hs).lexical (State.holds_lookupFrom hv))
  · exact Runs.raise hs

theorem callee (e : Expr) :
    D.Runs s (callee again e) (callee again' e) (OrDispatch P) := by
  unfold Interpreter.callee
  split
  · refine .get ?_
    split
    · rename_i hv
      exact .pure hs ((D.keeping hs).global hv)
    · exact Runs.throw hs
  · exact (h (.expr e) s hs trivial).weaken fun _ hv => .inl hv

omit h in
theorem closure (function : Function) :
    D.Runs s (closure function) (closure function) P := by
  have hfresh : D.Runs s freshId freshId fun _ => True :=
    .modifyGet hs (.quiet rfl rfl rfl) trivial
  refine hfresh.bind fun id t ht _ => ?_
  have hcapture : D.Runs t captureScope captureScope fun _ => True :=
    .modifyGet ht (.rescope fun _ hv => .inl hv) trivial
  exact hcapture.bind fun scope u hu _ => .get (.pure hu (D.kind.sub _))

theorem exprValue (e : Expr) :
    D.Runs s (exprValue rounds again e) (exprValue rounds again' e) P := by
  cases e with
  | nil => exact .pure hs D.kind.nil
  | bool _ b => exact .pure hs (D.kind.bool b)
  | int _ n => exact .pure hs (D.kind.int n)
  | str _ text => exact .pure hs (D.kind.str text)
  | list _ items =>
      exact (h.exprs hs items fun _ hv => absurd hv (Array.not_mem_empty _)).bind
        fun values t ht hvalues => .pure ht (D.kind.list hvalues)
  | lexical _ ref => exact loadLexical hs ref.name
  | global _ cell => exact loadGlobal hs cell
  | call span target args =>
      refine (h.callee hs target).bind fun f t ht hf => ?_
      refine (h.exprs ht args fun _ hv => absurd hv (Array.not_mem_empty _)).bind
        fun values u hu hvalues => ?_
      exact h.callValue hu hf (fun arg harg => hvalues arg (Array.mem_toList_iff.1 harg)) span
  | closure _ function => exact closure hs function
  | unary _ op operand =>
      exact (h (.expr operand) s hs trivial).bind fun v t ht _ =>
        Runs.operator ht (UnaryOp.simple_apply op v)
  | binary _ op left right =>
      refine (h (.expr left) s hs trivial).bind fun a t ht ha => ?_
      have hright : D.Runs t (again (.expr right)) (again' (.expr right)) P :=
        h (.expr right) t ht trivial
      split
      · split
        · exact hright
        · exact .pure ht ha
      · split
        · exact .pure ht ha
        · exact hright
      · exact hright.bind fun b u hu _ => Runs.operator hu (BinaryOp.simple_apply op a b)

/-! ## Statements -/

omit h in
theorem assignLexical (span : Span) (name : String) {value : Value} (hvalue : P value) :
    D.Runs s (assignLexical span name value) (assignLexical span name value) fun _ => True := by
  refine .get ?_
  split
  · refine .change hs (.rescope fun v hv => ?_)
    exact (State.holds_assign hv).imp_right (by rintro rfl; exact hvalue)
  · exact Runs.throw hs

theorem inner (body : Block) :
    D.Runs s (inner again body) (inner again' body) fun flow => P flow.value := by
  refine (h.scopedBlock hs body).bind fun flow t ht hflow => ?_
  cases flow with
  | ret value => exact .pure ht hflow
  | normal value => exact .pure ht D.kind.nil

theorem loop (span : Span) (test : Expr) (body : Block) :
    D.Runs s (stmt rounds again (.loop span test body)) (stmt rounds again' (.loop span test body))
      fun flow => P flow.value := by
  refine Agrees.iterate (J := fun _ t => D.Inv t) (fun _ t ht => ?_) rounds () hs
  refine Agrees.bind (h (.expr test) t ht trivial) fun value u hu _ => ?_
  have hu := D.inv hu
  split
  · exact Agrees.pure (D.refl hu) D.kind.nil
  · refine Agrees.bind (h.scopedBlock hu body) fun flow v hv hflow => ?_
    have hv := D.inv hv
    cases flow with
    | ret value => exact Agrees.pure (D.refl hv) hflow
    | normal value => exact Agrees.pure (D.refl hv) hv

theorem stmt (statement : Stmt) :
    D.Runs s (stmt rounds again statement) (stmt rounds again' statement)
      fun flow => P flow.value := by
  cases statement with
  | define span name value =>
      refine (h (.expr value) s hs trivial).bind fun v t ht hv => ?_
      refine (Runs.change ht (.rescope fun w hw => ?_)).bind fun _ u hu _ => .pure hu D.kind.nil
      exact (State.holds_define hw).imp_right (by rintro rfl; exact hv)
  | assignLexical span ref value =>
      refine (h (.expr value) s hs trivial).bind fun v t ht hv => ?_
      exact (assignLexical ht span ref.name hv).bind fun _ u hu _ => .pure hu D.kind.nil
  | assignGlobal span cell value =>
      refine (h (.expr value) s hs trivial).bind fun v t ht hv => ?_
      exact (Runs.change ht (.write cell hv)).bind fun _ u hu _ => .pure hu D.kind.nil
  | expr e => exact (h (.expr e) s hs trivial).bind fun v t ht hv => .pure ht hv
  | ret span value =>
      cases value with
      | none => exact .pure hs D.kind.nil
      | some e => exact (h (.expr e) s hs trivial).bind fun v t ht hv => .pure ht hv
  | block body => exact h.inner hs body
  | cond span test yes no =>
      refine (h (.expr test) s hs trivial).bind fun v t ht _ => ?_
      split
      · exact h.inner ht yes
      · cases no with
        | none => exact .pure ht D.kind.nil
        | some body => exact h.inner ht body
  | loop span test body => exact h.loop hs span test body

omit hs in
theorem stmts (hs : D.Inv s) {last : Value} (hlast : P last) (list : List Stmt) :
    D.Runs s (stmts rounds again last list) (stmts rounds again' last list)
      fun flow => P flow.value := by
  induction list generalizing s last with
  | nil => exact .pure hs hlast
  | cons statement list ih =>
      refine (h.stmt hs statement).bind fun flow t ht hflow => ?_
      cases flow with
      | normal value => exact ih ht hflow
      | ret value => exact .pure ht hflow

theorem block (b : Block) :
    D.Runs s (block rounds again b) (block rounds again' b) fun flow => P flow.value :=
  h.withExits hs b.span fun _ ht => h.stmts ht D.kind.nil b.stmts

end

/-! ## Nesting -/

include hwithin

/-- Parts that run parts which keep a discipline, keep it too, and depend on nothing else. -/
theorem perform (h : D.Parts again again') :
    D.Parts (perform rounds again) (perform rounds again') := by
  intro α work s hs hwork
  cases work with
  | expr e => exact (h.exprValue hs e).mapError _
  | block b => exact h.block hs b
  | call callee args span => exact h.callValue hs hwork.1 hwork.2 span
  | native native args => exact h.callNative hwithin hs hwork.2 hwork.1

end Parts

variable (D) in
/-- Every run keeps every discipline. -/
theorem run_parts : ∀ bound, D.Parts (run bound) (run bound)
  | 0, _, _, _, _, _ => ⟨rfl, trivial⟩
  | bound + 1, _, work, s, hs, hwork => by
    simpa only [run_succ] using
      Parts.perform (fun s _ work => run_within bound s work) (run_parts bound) work s hs hwork

end Discipline

end TwoPhase.Interpreter
