import TwoPhase.Proofs.Deferral.Visits
import TwoPhase.Proofs.Likeness.Frameless
import TwoPhase.Proofs.Live

/-!
# Dispatch and calls in line

A dispatch call runs the blocks that were put off in order, up to the first that fails.  Where there
is no limit on calls, that is what the calls of their callables do when they stand one after another
in its place (`dispatch_runs_inline`).  A dispatch function reads its list again before each hook,
so blocks that are put on the list meanwhile are run too, and no calls in line do that
(`joining_block_runs_too`).
-/

namespace TwoPhase

open Interpreter
open Run (Sim Keeps Triple)

namespace Interpreter

variable {asked : Nat} {fn : DispatchFn} {hooks : Array (Hook DeferredBlock)} {s : State}
  {cell : CellRef} {p q : Span}

/-! ## Calls in line -/

/-- Calls values one after another and without arguments, each the way a call expression does. -/
def callEach (span : Span) (callees : List Value) (bound : Nat) : Eval Unit :=
  forM callees fun callee => located span (do let _ ← callValue bound (run bound) callee [] span)

/-- An error is located at the call that it passes, so it can as well be located behind them all. -/
theorem callEach_eq (span : Span) (callees : List Value) (bound : Nat) :
    callEach span callees bound = located span (forM callees fun callee => do
      let _ ← callValue bound (run bound) callee [] span) := by
  induction callees with
  | nil => rfl
  | cons callee callees ih =>
      rw [callEach, List.forM_cons, ← callEach, ih, List.forM_cons]
      funext s
      simp only [located, Run.mapError, Run.bind_apply]
      cases callValue bound (run bound) callee [] span s <;> rfl

/-- Runs the statement that calls a global without arguments. -/
def callGlobal (span global : Span) (cell : CellRef) (bound : Nat) : Eval Flow :=
  stmt bound (run bound) (.expr (.call span (.global global cell) []))

/-- It calls what the cell holds. -/
theorem callGlobal_apply {callee : Value} (hcell : s.globals.value? cell = some callee)
    (bound : Nat) : callGlobal p q cell (bound + 1) s = (do
      let value ← located p (callValue bound (run bound) callee [] p)
      return Flow.normal value : Eval Flow) s := by
  simp only [callGlobal, stmt, run_succ, perform, expr, exprValue, Interpreter.callee, exprs,
    located, Run.mapError, Run.bind_apply, Run.get_apply, hcell, Run.pure_apply, Expr.span]

/-- The hooks of a dispatch function from a given one on. -/
def visitFrom (rounds : Nat) (fn : DispatchFn) (visit : Hook DeferredBlock → Eval Unit)
    (index : Nat) : Eval Unit :=
  Run.iterate rounds (fun index => do
    match ((← get).deferral.pending.hooks fn)[index]? with
    | none => return .done ()
    | some hook =>
      visit hook
      return .next (index + 1)) index

theorem visitFrom_eq (rounds : Nat) (visit : Hook DeferredBlock → Eval Unit) (index : Nat) :
    visitFrom rounds fn visit index
      = Pending.visitFrom (fun s : State => s.deferral.pending) rounds fn visit index := by
  unfold visitFrom Pending.visitFrom
  congr 1
  funext index s
  simp only [Run.bind_apply, Run.get_apply]
  cases (s.deferral.pending.hooks fn)[index]? <;> rfl

theorem visitAll_eq (rounds : Nat) (visit : Hook DeferredBlock → Eval Unit) :
    Pending.visitAll (fun s : State => s.deferral.pending) rounds fn visit
      = visitFrom rounds fn visit 0 := by
  rw [visitFrom_eq, Pending.visitAll_eq]

theorem visitFrom_succ (rounds : Nat) (visit : Hook DeferredBlock → Eval Unit) (index : Nat) :
    visitFrom (rounds + 1) fn visit index s =
      match (s.deferral.pending.hooks fn)[index]? with
      | none => .value () s
      | some hook => (do visit hook; visitFrom rounds fn visit (index + 1) : Eval Unit) s := by
  rw [visitFrom_eq, Pending.visitFrom_succ]
  cases (s.deferral.pending.hooks fn)[index]? with
  | none => rfl
  | some hook => rw [visitFrom_eq]

theorem callDispatch_apply (hexits : s.exits ≠ []) (rounds : Nat) (again : Again) :
    callDispatch rounds again fn p s = (do
      withFrame ⟨dispatchName, .dispatch, some p⟩
        (traced (visitFrom rounds fn (reachHook again p) 0))
      return .nil : Eval Value) s := by
  have hempty : s.exits.isEmpty = false := by simpa using hexits
  simp only [callDispatch, Run.bind_apply, Run.get_apply, hempty, Bool.false_eq_true, if_false,
    visitAll_eq]
  cases withFrame ⟨dispatchName, .dispatch, some p⟩
    (traced (visitFrom rounds fn (reachHook again p) 0)) s <;> rfl

/-- A visit to the hooks of a dispatch function in a frame, with errors located at its call. -/
def visitHooks (bound : Nat) (fn : DispatchFn) (span : Span) : Eval Unit :=
  located span (withFrame ⟨dispatchName, .dispatch, some span⟩
    (traced (visitFrom bound fn (reachHook (run bound) span) 0)))

/-- While a block is at work, that is what the statement of a dispatch call does. -/
theorem callGlobal_dispatch (hcell : s.globals.value? cell = some (.dispatch fn))
    (hexits : s.exits ≠ []) (bound : Nat) : callGlobal p q cell (bound + 1) s = (do
      visitHooks bound fn p
      return Flow.normal .nil : Eval Flow) s := by
  rw [callGlobal_apply hcell]
  simp only [callValue, List.isEmpty_nil, if_true, visitHooks, located, Run.mapError,
    Run.bind_apply]
  rw [callDispatch_apply hexits]
  simp only [Run.bind_apply]
  cases withFrame ⟨dispatchName, .dispatch, some p⟩
    (traced (visitFrom bound fn (reachHook (run bound) p) 0)) s <;> rfl

/-! ## Side by side -/

theorem visitFrom_moves (rounds bound index : Nat) (s : State) :
    Keeps ((steady asked fn hooks).Moves s)
      (visitFrom rounds fn (reachHook (run bound) p) index) := by
  have hreach : ∀ hook, Keeps ((steady asked fn hooks).Moves s) (reachHook (run bound) p hook) :=
    fun hook => Triple.and
      ((Alike.reachHook (run_alike (.frameless asked) bound 0) (.refl p)
        (like_refl _ hook)).moves s)
      ((run_respects bound s).reachHook p hook)
  refine Keeps.iterate (fun index => Keeps.get.bind fun u => ?_) rounds index
  split
  · exact Keeps.pure _
  · exact (hreach _).bind fun _ => Keeps.pure _

/-- The hook that a visit comes to next. -/
theorem hook_next {done rest : List DeferredBlock}
    (h : hooks.toList = (done ++ rest).map Hook.atRuntime) :
    hooks[done.length]? = rest.head?.map Hook.atRuntime := by
  rw [← Array.getElem?_toList, h]
  cases rest <;> simp

/-- The second run has the hooks of the first. -/
theorem hooks_second {t : State} (h : (steady asked fn hooks).Rel s t) :
    t.deferral.pending.hooks fn = hooks := by
  have hsame := h.1.like.eq_calls trivial
  rw [← h.2, hsame]

section

variable {rest : List DeferredBlock}
  (hcallable : ∀ block ∈ rest, block.callable.isCallable = true) (rounds bound more : Nat)

include hcallable

/-- A visit to the rest of the hooks calls the rest of the blocks. -/
theorem Steady.visit {done : List DeferredBlock}
    (hhooks : hooks.toList = (done ++ rest).map Hook.atRuntime) (visits : Nat) :
    Steady asked fn hooks (visitFrom visits fn (reachHook (run bound) p) done.length)
      (forM (rest.map (·.callable)) fun callee => do
        let _ ← callValue rounds (run (bound + more)) callee [] p) := by
  -- on the blocks that are left; those that are done are the place in the list
  induction rest generalizing done visits with
  | nil =>
      refine ⟨visitFrom_moves _ _ _, fun {s t} hs _ => ?_⟩
      cases visits with
      | zero => trivial
      | succ visits =>
          rw [visitFrom_succ, hs.2, hook_next hhooks]
          exact .inr ⟨(), t, rfl, rfl, hs⟩
  | cons block rest ih =>
      refine ⟨visitFrom_moves _ _ _, fun {s t} hs _ => ?_⟩
      cases visits with
      | zero => trivial
      | succ visits =>
          have hfirst : Steady asked fn hooks (reachHook (run bound) p (.atRuntime block))
              (do let _ ← callValue rounds (run (bound + more)) block.callable [] p) :=
            (Steady.called (hcallable block List.mem_cons_self) rounds bound more p).bind
              fun _ _ _ => .pure rfl
          have hdone : hooks.toList = (done ++ [block] ++ rest).map Hook.atRuntime := by
            simpa using hhooks
          have hrest := ih (fun b hb => hcallable b (List.mem_cons_of_mem block hb)) hdone visits
          rw [List.length_append] at hrest
          rw [visitFrom_succ, hs.2, hook_next hhooks, List.map_cons, List.forM_cons]
          exact (hfirst.bind fun _ _ _ => hrest).follows hs trivial

/-- Calls of the rest of the blocks visit the rest of the hooks, and find that there are no more. -/
theorem Steady.inline {done : List DeferredBlock}
    (hhooks : hooks.toList = (done ++ rest).map Hook.atRuntime) {visits : Nat}
    (hvisits : rest.length ≤ visits) :
    Steady asked fn hooks
      (forM (rest.map (·.callable)) fun callee => do
        let _ ← callValue rounds (run bound) callee [] p)
      (visitFrom (visits + 1) fn (reachHook (run (bound + more)) p) done.length) := by
  induction rest generalizing done visits with
  | nil =>
      refine ⟨fun _ => .pure _, fun {s t} hs _ => ?_⟩
      rw [visitFrom_succ, hooks_second hs, hook_next hhooks]
      exact .inr ⟨(), t, rfl, rfl, hs⟩
  | cons block rest ih =>
      -- a call for each block takes a round of the visit each
      obtain ⟨visits, rfl⟩ := Nat.exists_eq_add_of_le' (Nat.le_of_add_left_le hvisits)
      have hfirst : Steady asked fn hooks
          (do let _ ← callValue rounds (run bound) block.callable [] p)
          (reachHook (run (bound + more)) p (.atRuntime block)) :=
        (Steady.reached (hcallable block List.mem_cons_self) rounds bound more p).bind
          fun _ _ _ => .pure rfl
      have hdone : hooks.toList = (done ++ [block] ++ rest).map Hook.atRuntime := by
        simpa using hhooks
      have hrest := ih (fun b hb => hcallable b (List.mem_cons_of_mem block hb)) hdone
        (Nat.le_of_succ_le_succ hvisits)
      rw [List.length_append] at hrest
      have hall := hfirst.bind fun _ _ _ => hrest
      refine ⟨hall.moves, fun {s t} hs _ => ?_⟩
      rw [visitFrom_succ, hooks_second hs, hook_next hhooks]
      exact hall.follows hs trivial

end

section

variable {blocks : List DeferredBlock}
  (hcallable : ∀ block ∈ blocks, block.callable.isCallable = true)
  (hhooks : hooks.toList = blocks.map Hook.atRuntime) (bound : Nat)

include hcallable hhooks

theorem Steady.visit_all : Steady asked fn hooks (visitHooks bound fn p)
    (callEach p (blocks.map (·.callable)) bound) := by
  have hstart : hooks.toList = ([] ++ blocks).map Hook.atRuntime := hhooks
  rw [callEach_eq]
  exact ((Steady.visit hcallable bound bound 0 hstart bound).framed _).located p

/-- A visit takes one round for each hook, and one more to find the end of the list. -/
theorem Steady.inline_all : Steady asked fn hooks
    (callEach p (blocks.map (·.callable)) bound)
    (visitHooks (bound + (blocks.length + 1)) fn p) := by
  have hstart : hooks.toList = ([] ++ blocks).map Hook.atRuntime := hhooks
  have hvisits : blocks.length ≤ bound + blocks.length := Nat.le_add_left _ bound
  rw [callEach_eq]
  exact ((Steady.inline hcallable bound bound (blocks.length + 1) hstart
    hvisits).unframed _).located p

end

/-! ## Ends -/

/-- The same state, but for the most frames there have been at any time. -/
structure State.SameButPeak (s t : State) : Prop where
  eq : t = { s with calls := t.calls }
  frames : t.calls.frames = s.calls.frames
  limit : t.calls.limit = s.calls.limit

/-- No code asked who called it, and the list of a dispatch function is as it was. -/
structure State.Undisturbed (s : State) (fn : DispatchFn) (t : State) : Prop where
  asked : t.asked = s.asked
  hooks : t.deferral.pending.hooks fn = s.deferral.pending.hooks fn

/-- Given room enough, the second computation comes to whatever end the first comes to from a state:
to a value or to a fault of the same kind, and to the same state.  Only ends that count are looked
at. -/
def EndsLike {α β : Type} (counts : State → Prop) (s : State) (first : Nat → Eval α)
    (second : Nat → Eval β) : Prop :=
  ∀ bound, Triple (· = s) (first bound)
    (fun _ t => counts t → ∃ bound' b t', second bound' s = .value b t' ∧ t.SameButPeak t')
    (fun e t => counts t → ∃ bound' e' t', second bound' s = .error e' t' ∧
      e.kind.unplaced = e'.kind.unplaced ∧ t.SameButPeak t')

theorem State.Undisturbed.quiet {t : State} (h : s.Undisturbed fn t) :
    ¬(steady s.asked fn (s.deferral.pending.hooks fn)).Loud t := by
  rintro ((⟨hspans, _⟩ | ⟨_, hasked⟩) | hgrown)
  · exact hspans trivial
  · exact Nat.lt_irrefl _ (h.asked ▸ hasked)
  · exact Nat.lt_irrefl _ (h.hooks ▸ hgrown)

theorem steady_self (hlimit : s.calls.limit = none) :
    (steady s.asked fn (s.deferral.pending.hooks fn)).Rel s s :=
  ⟨⟨.refl s, fun hspans => absurd trivial hspans, fun _ => ⟨hlimit, hlimit⟩, Nat.zero_le _,
    Nat.zero_le _, Nat.le_refl _⟩, rfl⟩

theorem sameButPeak {t t' : State} (h : Matched (.frameless asked) t t') (ht : Restored s t)
    (ht' : Restored s t') : t.SameButPeak t' where
  eq := h.like.eq_calls trivial
  frames := ht'.frames.trans ht.frames.symm
  limit := ht'.limit.trans ht.limit.symm

/-- Runs from one state that stay side by side end alike. -/
theorem Steady.ends {α : Type} [HasLike α] {body body' : Eval α} (hlimit : s.calls.limit = none)
    (h : Steady s.asked fn (s.deferral.pending.hooks fn) body body')
    (hmoves : Keeps ((steady s.asked fn (s.deferral.pending.hooks fn)).Moves s) body') :
    Triple (· = s) body
      (fun _ t => s.Undisturbed fn t → ∃ a' t', body' s = .value a' t' ∧ t.SameButPeak t')
      (fun e t => s.Undisturbed fn t → ∃ e' t', body' s = .error e' t' ∧
        e.kind.unplaced = e'.kind.unplaced ∧ t.SameButPeak t') := by
  rintro u rfl
  cases hrun : body u with
  | cutOff => trivial
  | value a t =>
      -- the runs part only where code asks for its callers or joins the list, and none does here
      intro hquiet
      rcases h.value (steady_self hlimit) trivial hrun with hloud | ⟨a', t', hrun', _, ht⟩
      · exact absurd hloud hquiet.quiet
      · exact ⟨a', t', hrun', sameButPeak ht.1 (h.moves_value hrun).1
          (hmoves.value ⟨.refl u, .refl u⟩ hrun').1⟩
  | error e t =>
      intro hquiet
      rcases h.error (steady_self hlimit) trivial hrun with hloud | ⟨e', t', hrun', he, ht⟩
      · exact absurd hloud hquiet.quiet
      · exact ⟨e', t', hrun', he.kind, sameButPeak ht.1 (h.moves_error hrun).1
          (hmoves.error ⟨.refl u, .refl u⟩ hrun').1⟩

end Interpreter

/-- The statement that calls a dispatch function does what the calls of the callables put off to it
do in its place, provided that there is no limit on calls, that no code asks for its callers and
that none puts another block onto the list of the function.  Both end with a value, both end with a
fault of the same kind, or neither ends; and the state is the same in the end. -/
theorem dispatch_runs_inline {s : State} {fn : DispatchFn} {cell : CellRef}
    {blocks : List DeferredBlock} (hlimit : s.calls.limit = none) (hexits : s.exits ≠ [])
    (hcell : s.globals.value? cell = some (.dispatch fn))
    (hhooks : (s.deferral.pending.hooks fn).toList = blocks.map .atRuntime)
    (hcallable : ∀ block ∈ blocks, block.callable.isCallable = true) (span global : Span) :
    EndsLike (s.Undisturbed fn) s (callGlobal span global cell)
        (callEach span (blocks.map (·.callable))) ∧
      EndsLike (s.Undisturbed fn) s (callEach span (blocks.map (·.callable)))
        (callGlobal span global cell) := by
  have hvisit : ∀ bound, Steady s.asked fn (s.deferral.pending.hooks fn)
      (visitHooks bound fn span) (callEach span (blocks.map (·.callable)) bound) :=
    fun bound => Steady.visit_all hcallable hhooks bound
  have hinline : ∀ bound, Steady s.asked fn (s.deferral.pending.hooks fn)
      (callEach span (blocks.map (·.callable)) bound)
      (visitHooks (bound + (blocks.length + 1)) fn span) :=
    fun bound => Steady.inline_all hcallable hhooks bound
  have hdispatch : ∀ bound, callGlobal span global cell (bound + 1) s =
      (do visitHooks bound fn span; return Flow.normal .nil : Eval Flow) s :=
    callGlobal_dispatch hcell hexits
  constructor
  · -- the statement takes a level more than its visit does
    intro bound
    cases bound with
    | zero => exact fun _ _ => trivial
    | succ bound =>
        have hends := (hvisit bound).ends hlimit ((hinline bound).moves s)
        refine .congr_at (hdispatch bound)
          (Triple.bind (hends.weaken (fun _ => id) ?_ ?_) fun _ => .pure)
        · intro _ t hend hquiet
          obtain ⟨a, t', hrun, hsame⟩ := hend hquiet
          exact ⟨bound, a, t', hrun, hsame⟩
        · intro e t hend hquiet
          obtain ⟨e', t', hrun, hkind, hsame⟩ := hend hquiet
          exact ⟨bound, e', t', hrun, hkind, hsame⟩
  · intro bound
    have hends := (hinline bound).ends hlimit ((hvisit _).moves s)
    refine hends.weaken (fun _ => id) ?_ ?_
    · intro _ t hend hquiet
      obtain ⟨_, t', hrun, hsame⟩ := hend hquiet
      refine ⟨bound + (blocks.length + 1) + 1, .normal .nil, t', (hdispatch _).trans ?_, hsame⟩
      rw [Run.bind_apply, hrun]
      rfl
    · intro e t hend hquiet
      obtain ⟨e', t', hrun, hkind, hsame⟩ := hend hquiet
      refine ⟨bound + (blocks.length + 1) + 1, e', t', (hdispatch _).trans ?_, hkind, hsame⟩
      rw [Run.bind_apply, hrun]

/-! ## Blocks that join -/

namespace Interpreter

/-- The dispatch name is bound to a function of blocks that run where it is called, in the middle of
code without a limit on calls. -/
def State.dispatches (s : State) (fn : DispatchFn) : Bool :=
  decide (s.boundDispatch? = some fn) && s.calls.limit.isNone && !s.exits.isEmpty &&
    (s.deferral.pending.hooks fn).toList.all fun
      | .atRuntime block => block.callable.isCallable
      | .afterRuntime _ => false

/-- The blocks on the list of a dispatch function. -/
def State.blocks (s : State) (fn : DispatchFn) : List DeferredBlock :=
  (s.deferral.pending.hooks fn).toList.map Hook.block

theorem State.dispatches_iff {s : State} {fn : DispatchFn} :
    s.dispatches fn = true ↔ s.boundDispatch? = some fn ∧
    s.calls.limit = none ∧ s.exits ≠ [] ∧
    (s.deferral.pending.hooks fn).toList = (s.blocks fn).map .atRuntime ∧
    ∀ block ∈ s.blocks fn, block.callable.isCallable = true := by
  have hhooks : ((s.deferral.pending.hooks fn).toList.all fun
      | .atRuntime block => block.callable.isCallable
      | .afterRuntime _ => false) = true ↔
      (s.deferral.pending.hooks fn).toList = (s.blocks fn).map .atRuntime ∧
        ∀ block ∈ s.blocks fn, block.callable.isCallable = true := by
    rw [State.blocks]
    induction (s.deferral.pending.hooks fn).toList with
    | nil => simp
    | cons hook hooks ih =>
        cases hook with
        | atRuntime block => simp [ih, Hook.block, and_left_comm]
        | afterRuntime block => simp
  simp only [State.dispatches, Bool.and_eq_true, hhooks]
  simp [and_assoc]

/-- A bound dispatch function is in the cell that its name means. -/
theorem State.value?_of_boundDispatch? {s : State} {fn : DispatchFn}
    (h : s.boundDispatch? = some fn) :
    s.globals.value? (s.globals.cell dispatchName) = some (.dispatch fn) := by
  refine (Globals.cell_of_lookup? ?_).1
  unfold State.boundDispatch? at h
  split at h
  · rename_i bound hlookup
    rw [hlookup, Option.some.inj h]
  · cases h

end Interpreter

/-- Puts off what programs give, as a `begin` block of a main unit does. -/
def putOff (sources : List String) : Run State Session.RunError Unit := do
  let callees ← sources.mapM (Session.runSource 20)
  modify fun s => { s.enterUnit "main" .main none "" with depth := 1, exits := [[]] }
  forM callees fun callee => Run.mapError (Session.atRuntime callee) fun _ => .runtime

/-- The state after that in a session without a limit on calls. -/
def puttingOff (sources : List String) : State :=
  ((putOff sources (Session.start { Settings.default with callLimit := none })).state?).getD default

/-- A sub and a native sub, both put off. -/
def subAndNative : State := puttingOff ["fn() \x7b print(1); \x7d;", "print;"]

/-- They print the same in line. -/
theorem dispatch_of_two_runs_inline : ∃ fn cell blocks v t bound t',
    subAndNative.calls.limit = none ∧ subAndNative.exits ≠ [] ∧
    subAndNative.globals.value? cell = some (.dispatch fn) ∧
    (subAndNative.deferral.pending.hooks fn).toList = List.map Hook.atRuntime blocks ∧
    (∀ block ∈ blocks, block.callable.isCallable = true) ∧
    callGlobal (.point 0) (.point 0) cell 20 subAndNative = .value v t ∧
    t.output = .buffer "1\n\n" ∧
    callEach (.point 0) (blocks.map (·.callable)) bound subAndNative = .value () t' ∧
    t.SameButPeak t' := by
  have htest : (subAndNative.dispatches ⟨0, 1⟩ &&
      (callGlobal (.point 0) (.point 0) (subAndNative.globals.cell dispatchName) 20
        subAndNative).valueWith fun _ t =>
          t.output = .buffer "1\n\n" ∧ t.asked = subAndNative.asked ∧
          (t.deferral.pending.hooks ⟨0, 1⟩).size
            = (subAndNative.deferral.pending.hooks ⟨0, 1⟩).size) = true := by
    decide +kernel
  generalize subAndNative = s at htest ⊢
  obtain ⟨hstart, htest⟩ := Bool.and_eq_true_iff.1 htest
  obtain ⟨hbound, hlimit, hexits, hhooks, hcallable⟩ := State.dispatches_iff.1 hstart
  have hcell := State.value?_of_boundDispatch? hbound
  obtain ⟨v, t, hrun, htest⟩ := Run.Outcome.exists_value htest
  obtain ⟨houtput, hasked, hsize⟩ := of_decide_eq_true htest
  have hwithin : Within s t := ((run_respects 20 s).stmt _).value (.refl s) hrun
  have hundisturbed : s.Undisturbed ⟨0, 1⟩ t :=
    ⟨hasked, (Array.toList_inj.1 ((hwithin.core.hooks ⟨0, 1⟩).eq_of_length hsize.symm)).symm⟩
  have hinline := dispatch_runs_inline hlimit hexits hcell hhooks hcallable (.point 0) (.point 0)
  obtain ⟨bound, _, t', hrun', hsame⟩ := (hinline.1 20).value rfl hrun hundisturbed
  exact ⟨⟨0, 1⟩, _, s.blocks ⟨0, 1⟩, v, t, bound, t', hlimit, hexits, hcell, hhooks,
    hcallable, hrun, houtput, hrun', hsame⟩

/-- A block put off that puts another one off when it runs. -/
def joining : State :=
  puttingOff ["fn() \x7b print(1); at_runtime(fn() \x7b print(2); \x7d); \x7d;"]

/-- While its depth is still pending, the other block joins the list that the dispatch call is at:
that runs both, and the call of the block in line runs the first only. -/
theorem joining_block_runs_too : ∃ fn cell blocks v t t',
    joining.calls.limit = none ∧ joining.exits ≠ [] ∧
    joining.globals.value? cell = some (.dispatch fn) ∧
    (joining.deferral.pending.hooks fn).toList = List.map Hook.atRuntime blocks ∧
    (∀ block ∈ blocks, block.callable.isCallable = true) ∧
    callGlobal (.point 0) (.point 0) cell 20 joining = .value v t ∧
    callEach (.point 0) (blocks.map (·.callable)) 20 joining = .value () t' ∧
    t.asked = joining.asked ∧ t'.asked = joining.asked ∧
    t.output = .buffer "1\n2\n" ∧ t'.output = .buffer "1\n" := by
  have htest : (joining.dispatches ⟨0, 1⟩ &&
      ((callGlobal (.point 0) (.point 0) (joining.globals.cell dispatchName) 20 joining).valueWith
          fun _ t => t.asked = joining.asked ∧ t.output = .buffer "1\n2\n") &&
        (callEach (.point 0) ((joining.blocks ⟨0, 1⟩).map (·.callable)) 20 joining).valueWith
          fun _ t => t.asked = joining.asked ∧ t.output = .buffer "1\n") = true := by
    decide +kernel
  generalize joining = s at htest ⊢
  obtain ⟨htest, hcalls⟩ := Bool.and_eq_true_iff.1 htest
  obtain ⟨hstart, hdispatch⟩ := Bool.and_eq_true_iff.1 htest
  obtain ⟨hbound, hlimit, hexits, hhooks, hcallable⟩ := State.dispatches_iff.1 hstart
  have hcell := State.value?_of_boundDispatch? hbound
  obtain ⟨v, t, hrun, hdispatch⟩ := Run.Outcome.exists_value hdispatch
  obtain ⟨_, t', hrun', hcalls⟩ := Run.Outcome.exists_value hcalls
  obtain ⟨hasked, houtput⟩ := of_decide_eq_true hdispatch
  obtain ⟨hasked', houtput'⟩ := of_decide_eq_true hcalls
  exact ⟨⟨0, 1⟩, _, s.blocks ⟨0, 1⟩, v, t, t', hlimit, hexits, hcell, hhooks, hcallable,
    hrun, hrun', hasked, hasked', houtput, houtput'⟩

end TwoPhase
