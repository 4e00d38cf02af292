import TwoPhase.Interpreter.Code
import TwoPhase.Proofs.Likeness.Construct

/-!
# Code side by side

Code that differs in spans only follows other such code from states that are alike.  What one part
of a program does, it does in both runs, if the parts inside it do; so all runs follow each other,
where the second may be given more rounds and room than the first (`run_alike`).
-/

namespace TwoPhase.Interpreter

open Run (Sim)

variable {K : Comparison} {v w : Value} {vs ws : List Value} {p q : Span}

namespace Alike

variable {again again' : Again}

/-! ## Arguments -/

theorem oneArg (name : String) (h : vs.Forall₂ (Value.Like K) ws) :
    Alike K (Interpreter.oneArg name vs) (Interpreter.oneArg name ws) := by
  cases h with
  | nil => exact raise_self _
  | cons hv hrest =>
      cases hrest with
      | nil => exact .pure hv
      | cons _ hrest =>
          simp only [Interpreter.oneArg, List.length_cons, hrest.length_eq]
          exact raise_self _

theorem oneString (name : String) (h : vs.Forall₂ (Value.Like K) ws) :
    Alike K (Interpreter.oneString name vs) (Interpreter.oneString name ws) := by
  refine (oneArg name h).bind fun v w hv => ?_
  cases hv with
  | same =>
      cases v with
      | str text => exact .pure rfl
      | _ => exact raise_self _
  | list => exact raise_self _
  | sub => exact raise_self _

theorem oneDepth (name : String) (h : vs.Forall₂ (Value.Like K) ws) :
    Alike K (Interpreter.oneDepth name vs) (Interpreter.oneDepth name ws) := by
  refine (oneArg name h).bind fun v w hv => ?_
  cases hv with
  | same =>
      cases v with
      | int n =>
          dsimp only
          split
          · exact raise_self _
          · exact .pure rfl
      | _ => exact raise_self _
  | list => exact raise_self _
  | sub => exact raise_self _

theorem length (name : String) (h : vs.Forall₂ (Value.Like K) ws) :
    Alike K (Interpreter.length name vs) (Interpreter.length name ws) := by
  refine (oneArg name h).bind fun v w hv => ?_
  cases hv with
  | same =>
      cases v with
      | str text => exact .pure (like_refl K _)
      | list items => exact .pure (like_refl K _)
      | _ => exact raise_self _
  | list hitems =>
      refine .pure ?_
      rw [List.size_toArray, List.size_toArray, hitems.length_eq]
      exact .same _
  | sub => exact raise_self _

theorem slotName (h : vs.Forall₂ (Value.Like K) ws) :
    Interpreter.slotName vs = Interpreter.slotName ws := by
  cases h with
  | nil => rfl
  | cons hv _ => exact hv.display

theorem getD_nil {v w : Option Value} (h : Option.Rel (Value.Like K) v w) :
    (v.getD .nil).Like K (w.getD .nil) := by
  cases h with
  | none => exact .same _
  | some h => exact h

/-! ## Native subs -/

theorem println (line : String) :
    Alike K (Interpreter.println line) (Interpreter.println line) := by
  refine Sim.update (fun s => { Restored.refl s with }) fun {s t} hs _ => .inr ?_
  exact { hs with like := { hs.like with output := congrArg (·.println line) hs.like.output } }

/-- Who called is alike if frames count, and of no interest otherwise. -/
theorem callers : Alike K (do
      modify fun s => { s with asked := s.asked + 1 }
      return .list ((← get).calls.names.map .str).toArray : Eval Value) (do
      modify fun s => { s with asked := s.asked + 1 }
      return .list ((← get).calls.names.map .str).toArray) := by
  have hmoves : ∀ s : State, Restored s { s with asked := s.asked + 1 } := fun s =>
    { Restored.refl s with asked := Nat.le_succ _ }
  by_cases hframes : K.frames
  · refine Sim.bind (Sim.update hmoves fun {s t} hs _ => .inr ?_) fun _ _ _ => .get fun s t hs => ?_
    · exact { hs with
        like := { hs.like with asked := congrArg (· + 1) hs.like.asked }
        asked := Nat.le_succ_of_le hs.asked }
    · rw [hs.calls.names hframes]
      exact .pure (.same _)
  · exact ⟨fun s u hu => Restored.trans hu (hmoves u),
      fun hs _ => .inl (.inr ⟨hframes, Nat.lt_succ_of_le hs.asked⟩)⟩

theorem boundDispatch? {s t : State} (h : s.Like K t) : s.boundDispatch? = t.boundDispatch? := by
  unfold State.boundDispatch?
  rcases rel_cases (h.globals.lookup? dispatchName) with ⟨hs, ht⟩ | ⟨v, w, hs, ht, hvalue⟩ <;>
    rw [hs, ht]
  cases hvalue <;> rfl

section

variable (h : NestedAlike K again again') (rounds more : Nat)

include h

theorem callBuiltin (sub : Builtin) (hargs : vs.Forall₂ (Value.Like K) ws) :
    Alike K (Interpreter.callBuiltin rounds again sub vs)
      (Interpreter.callBuiltin (rounds + more) again' sub ws) := by
  cases sub with
  | print =>
      simp only [Interpreter.callBuiltin, Value.Like.concat hargs]
      exact (println _).bind fun _ _ _ => .pure (like_refl K _)
  | atRuntime =>
      exact (oneArg _ hargs).bind fun _ _ hv => (defer hv _).bind fun _ _ _ => .pure (like_refl K _)
  | afterRuntime =>
      exact (oneArg _ hargs).bind fun _ _ hv => (defer hv _).bind fun _ _ _ => .pure (like_refl K _)
  | lexStuff =>
      refine (oneString _ hargs).bind fun text text' htext => ?_
      obtain rfl : text = text' := htext
      exact (lexStuff text).bind fun _ _ _ => .pure (like_refl K _)
  | clear =>
      refine (oneDepth _ hargs).bind fun depth depth' hdepth => ?_
      obtain rfl : depth = depth' := hdepth
      exact (clearDepth depth).bind fun _ _ _ => .pure (like_refl K _)
  | eval =>
      refine (oneString _ hargs).bind fun text text' htext => ?_
      obtain rfl : text = text' := htext
      exact evalString h rounds more text
  | require =>
      refine (oneString _ hargs).bind fun name name' hname => ?_
      obtain rfl : name = name' := hname
      exact require h rounds more name
  | callers =>
      cases hargs with
      | nil => exact callers
      | cons _ hrest =>
          simp only [Interpreter.callBuiltin, List.length_cons, hrest.length_eq]
          exact raise_self _
  | die =>
      simp only [Interpreter.callBuiltin, Value.Like.concat hargs]
      exact raise_self _
  | len => exact length _ hargs
  | str =>
      refine (oneArg _ hargs).bind fun v w hv => .pure ?_
      rw [hv.display]
      exact .same _

theorem callProbe (probe : Probe) (hargs : vs.Forall₂ (Value.Like K) ws) :
    Alike K (Interpreter.callProbe again probe vs) (Interpreter.callProbe again' probe ws) := by
  cases probe with
  | depth =>
      refine .get fun s t hs => .pure ?_
      rw [hs.depth]
      exact .same _
  | snapshot =>
      refine .get fun s t hs => .pure ?_
      rw [State.pendingDepths, State.pendingDepths, hs.pending.activeDepths, boundDispatch? hs]
      exact .same _
  | attempt =>
      cases hargs with
      | nil => exact raise_self _
      | cons hv hrest =>
          refine (h.call hv hrest (.refl _)).attempt.bind fun result result' hresult => ?_
          cases result <;> cases result'
          · refine .pure ?_
            rw [EvalError.Like.message hresult]
            exact .same _
          · exact hresult.elim
          · exact hresult.elim
          · exact .pure (.list (.cons (.same _) (.cons hresult .nil)))
  | block =>
      refine freshId.bind fun id id' hid => .pure ?_
      obtain rfl : id = id' := hid
      rw [Value.Like.concat hargs]
      exact .same _
  | blockBody id text => exact (println _).bind fun _ _ _ => .pure (like_refl K _)
  | global =>
      refine .get fun s t hs => .pure ?_
      rw [slotName hargs]
      exact getD_nil (hs.globals.lookup? _)
  | keep =>
      refine Sim.bind (Sim.update (fun s => { Restored.refl s with }) fun {s t} hs _ => .inr ?_)
        fun _ _ _ => .pure (like_refl K _)
      rw [slotName hargs]
      exact { hs with like := { hs.like with
        kept := hs.like.kept.insert _ (getD_nil (forall₂_getElem? hargs 1)) } }
  | kept =>
      refine .get fun s t hs => .pure ?_
      rw [slotName hargs]
      exact getD_nil (hs.kept.getElem? .same _)

theorem callNative (native : Native) (hargs : vs.Forall₂ (Value.Like K) ws) :
    Alike K (Interpreter.callNative rounds again native vs)
      (Interpreter.callNative (rounds + more) again' native ws) := by
  cases native with
  | builtin sub => exact callBuiltin h rounds more sub hargs
  | probe probe => exact callProbe h probe hargs

end

/-! ## Calls -/

/-- Gives a value to a name of the innermost scope. -/
theorem define (name : String) (hvalue : v.Like K w) :
    Alike K (modify fun s => { s with env := s.env.define name v })
      (modify fun s => { s with env := s.env.define name w }) := by
  refine Sim.update (fun s => { Restored.refl s with env := .defineIn s.env _ name v })
    fun {s t} hs _ => .inr ?_
  exact { hs with like := { hs.like with env := hs.like.env.define name hvalue } }

theorem bindParams (params : List String) (hargs : vs.Forall₂ (Value.Like K) ws) :
    Alike K (Interpreter.bindParams params vs) (Interpreter.bindParams params ws) := by
  induction params generalizing vs ws with
  | nil => exact .pure rfl
  | cons param params ih =>
      cases hargs with
      | nil => exact .pure rfl
      | cons hv hrest => exact (define param hv).bind fun _ _ _ => ih hrest

/-- Makes a block wait for the exit of the innermost block at work. -/
theorem awaitExit {b c : DeferredBlock} (hblock : b.Like K c) :
    Alike K (Interpreter.awaitExit b) (Interpreter.awaitExit c) := by
  refine Sim.update (fun s => ?_) fun {s t} hs _ => .inr ?_
  · refine { Restored.refl s with exits := ?_, outerExits := ?_ } <;>
      cases h : s.exits <;> simp [State.await, h]
  · have hlog : TwoPhase.Like K (s.await b).exitLog (t.await c).exitLog :=
      .cons (.awaited hs.like.exits hblock) hs.like.exitLog
    refine { hs with like := { hs.like with exits := ?_, exitLog := hlog } }
    rcases forall₂_cases hs.like.exits with
      ⟨hs, ht⟩ | ⟨blocks, outer, blocks', outer', hs, ht, hblocks, houter⟩ <;>
      simp only [State.await, hs, ht]
    · exact .nil
    · exact .cons (List.Forall₂.cons hblock hblocks) houter

/-- Records that a block runs whose wait is over. -/
theorem invoke {b c : DeferredBlock} (hblock : b.Like K c) :
    Alike K (modify (·.invoke b) : Eval PUnit) (modify (·.invoke c)) := by
  refine Sim.update (fun s => { Restored.refl s with }) fun {s t} hs _ => .inr ?_
  have hlog : TwoPhase.Like K (s.invoke b).exitLog (t.invoke c).exitLog :=
    .cons (.invoked hs.like.exits hblock) hs.like.exitLog
  exact { hs with like := { hs.like with exitLog := hlog } }

section

variable (h : NestedAlike K again again') (rounds more : Nat)

include h

theorem scopedBlock {b c : Block} (hblock : b.Like K c) :
    Alike K (Interpreter.scopedBlock again b) (Interpreter.scopedBlock again' c) :=
  inBlockScope (h.block hblock)

theorem callSub {sub sub' : Sub} (hsub : (Value.sub sub).Like K (.sub sub'))
    (hargs : vs.Forall₂ (Value.Like K) ws) {frame frame' : Frame}
    (hframe : K.frames → frame.Like K frame') (hkind : frame.kind ≠ .beginBlock) :
    Alike K (Interpreter.callSub again sub vs frame)
      (Interpreter.callSub again' sub' ws frame') := by
  obtain ⟨hname, hfunction, hcaptured, hunit⟩ := hsub.sub_inv
  have hbody := (bindParams sub.function.params hargs).bind fun _ _ _ =>
    scopedBlock h hfunction.body
  have hcalled := inCodeOf_aligned sub.unit (inFrame hframe hkind sub.captured hbody)
  unfold Interpreter.callSub
  dsimp only
  rw [← hname, ← hunit, ← hcaptured, ← hfunction.params, ← hargs.length_eq]
  split
  · exact raise_self (α := Value) _
  · refine hcalled.bind fun flow flow' hflow => ?_
    cases hflow with
    | normal _ => exact .pure (like_refl K _)
    | ret hvalue => exact .pure hvalue

theorem runDeferred {b c : DeferredBlock} (hblock : b.Like K c) (hspan : p.Like K q) :
    Alike K (Interpreter.runDeferred again b p) (Interpreter.runDeferred again' c q) := by
  obtain ⟨callable, label⟩ := b
  obtain ⟨callable', label'⟩ := c
  obtain ⟨hcallable, rfl⟩ := hblock
  have hframe : K.frames → Frame.Like K ⟨label, .hook, some p⟩ ⟨label, .hook, some q⟩ := fun _ =>
    ⟨rfl, rfl, .some hspan⟩
  have hkind : FrameKind.hook ≠ .beginBlock := fun hkind => nomatch hkind
  cases hcallable with
  | same =>
      cases callable with
      | sub sub => exact callSub h (.same _) .nil hframe hkind
      | native native => exact inFrame hframe hkind none (h.native native .nil)
      | _ => exact raise_self _
  | list => exact raise_self _
  | sub id name captured unit hfunction =>
      exact callSub h (.sub id name captured unit hfunction) .nil hframe hkind

theorem runExits (hspan : p.Like K q) {result result' : Except EvalError Flow}
    (hresult : Like K result result') {bs cs : List DeferredBlock}
    (hblocks : bs.Forall₂ (DeferredBlock.Like K) cs) :
    Alike K (Interpreter.runExits again p result bs)
      (Interpreter.runExits again' q result' cs) := by
  induction hblocks generalizing result result' with
  | nil => exact .ofExcept hresult
  | cons hblock _ ih =>
      refine (invoke hblock).bind fun _ _ _ => ?_
      refine (runDeferred h hblock hspan).attempt.bind fun ended ended' hended => ih ?_
      cases result <;> cases result'
      · exact hresult
      · exact hresult.elim
      · exact hresult.elim
      · cases ended <;> cases ended'
        · exact hended
        · exact hended.elim
        · exact hended.elim
        · exact hresult

/-- Code that waits for nothing follows other such code as a block that others may wait for. -/
theorem withExits (hspan : p.Like K q) {body body' : Eval Flow} (hbody : Alike K body body') :
    Alike K (Interpreter.withExits again p body) (Interpreter.withExits again' q body') := by
  refine Sim.attemptBetween hbody (fun {s t} hs => ?_) (fun hs => hs) (fun {s t} hs hA => ?_)
    (fun {s t} hs => ?_) fun _ _ _ _ hresult hblocks => runExits h hspan hresult hblocks
  · have hexits : t.exits.tail = s.exits := hs.outerExits
    exact { hs with exits := congrArg List.length hexits, outerExits := congrArg List.tail hexits }
  · exact ⟨{ hs with like := { hs.like with exits := .cons .nil hs.like.exits } },
      fun ha => { hA ha with }⟩
  · refine ⟨?_, { hs with like := { hs.like with exits := forall₂_tail hs.like.exits } }⟩
    rcases forall₂_cases hs.like.exits with
      ⟨hs, ht⟩ | ⟨blocks, outer, blocks', outer', hs, ht, hblocks, _⟩ <;>
      rw [hs, ht]
    · exact .nil
    · exact hblocks

theorem reachHook (hspan : p.Like K q) {hook hook' : Hook DeferredBlock}
    (hhook : hook.Like K hook') :
    Alike K (Interpreter.reachHook again p hook) (Interpreter.reachHook again' q hook') := by
  cases hhook with
  | atRuntime hblock => exact (runDeferred h hblock hspan).bind fun _ _ _ => .pure rfl
  | afterRuntime hblock => exact awaitExit hblock

theorem callDispatch (fn : DispatchFn) (hspan : p.Like K q) :
    Alike K (Interpreter.callDispatch rounds again fn p)
      (Interpreter.callDispatch (rounds + more) again' fn q) := by
  have hvisit : Alike K
      (Pending.visitAll (fun s => s.deferral.pending) rounds fn (Interpreter.reachHook again p))
      (Pending.visitAll (fun s => s.deferral.pending) (rounds + more) fn
        (Interpreter.reachHook again' q)) := by
    refine .iterate (fun index index' hindex => .get fun s t hs => ?_) (Nat.le_add_right _ _)
      (like_refl K 0)
    obtain rfl : index = index' := hindex
    rcases rel_cases (hs.pending.hooks fn index) with ⟨hs, ht⟩ | ⟨hook, hook', hs, ht, hhook⟩ <;>
      rw [hs, ht]
    · exact .pure rfl
    · exact (reachHook h hspan hhook).bind fun _ _ _ => .pure rfl
  have hframe : K.frames →
      Frame.Like K ⟨dispatchName, .dispatch, some p⟩ ⟨dispatchName, .dispatch, some q⟩ := fun _ =>
    ⟨rfl, rfl, .some hspan⟩
  have hbody := Sim.bind (withFrame (A := aligned K) (B := aligned K) hframe
      (aligned_pushed fun hkind => nomatch hkind) (traced hvisit))
    fun _ _ _ => Sim.pure (like_refl K (Flow.normal .nil))
  refine .get fun s t hs => ?_
  rw [forall₂_isEmpty hs.exits]
  split
  · exact (withExits h hspan hbody).bind fun _ _ hflow => .pure (Flow.Like.value hflow)
  · exact hbody.bind fun _ _ hflow => .pure (Flow.Like.value hflow)

theorem callValue (hcallee : v.Like K w) (hargs : vs.Forall₂ (Value.Like K) ws)
    (hspan : p.Like K q) : Alike K (Interpreter.callValue rounds again v vs p)
      (Interpreter.callValue (rounds + more) again' w ws q) := by
  have hsub : ∀ {sub sub' : Sub}, (Value.sub sub).Like K (.sub sub') →
      Alike K (Interpreter.callSub again sub vs ⟨sub.name, .sub, some p⟩)
        (Interpreter.callSub again' sub' ws ⟨sub'.name, .sub, some q⟩) := fun hsub =>
    callSub h hsub hargs (fun _ => ⟨hsub.sub_inv.1, rfl, .some hspan⟩) fun hkind => nomatch hkind
  cases hcallee with
  | same =>
      cases v with
      | sub sub => exact hsub (.same _)
      | native native => exact h.native native hargs
      | dispatch fn =>
          simp only [Interpreter.callValue, forall₂_isEmpty hargs, hargs.length_eq]
          split
          · exact callDispatch h rounds more fn hspan
          · exact raise_self _
      | _ => exact raise_self _
  | list => exact raise_self _
  | sub id name captured unit hfunction => exact hsub (.sub id name captured unit hfunction)

end

/-! ## Expressions -/

theorem loadGlobal (cell : CellRef) :
    Alike K (Interpreter.loadGlobal cell) (Interpreter.loadGlobal cell) := by
  refine .get fun s t hs => ?_
  rcases rel_cases (hs.globals.value? cell) with ⟨hs, ht⟩ | ⟨v, w, hs, ht, hvalue⟩ <;> rw [hs, ht]
  · exact raise_self _
  · cases hvalue with
    | same =>
        cases v with
        | dispatch fn => exact raise_self _
        | _ => exact .pure (.same _)
    | list hitems => exact .pure (.list hitems)
    | sub id name captured unit hfunction => exact .pure (.sub id name captured unit hfunction)

theorem loadLexical (name : String) :
    Alike K (Interpreter.loadLexical name) (Interpreter.loadLexical name) := by
  refine .get fun s t hs => ?_
  rcases rel_cases (hs.env.lookup? name) with ⟨hs, ht⟩ | ⟨v, w, hs, ht, hvalue⟩ <;> rw [hs, ht]
  · exact raise_self _
  · exact .pure hvalue

theorem closure {f g : Function} (hfunction : f.Like K g) :
    Alike K (Interpreter.closure f) (Interpreter.closure g) := by
  refine freshId.bind fun id id' hid => captureScope.bind fun scope scope' hscope => ?_
  obtain rfl : id = id' := hid
  obtain rfl : scope = scope' := hscope
  refine .get fun s t hs => .pure ?_
  rw [hs.currentUnit]
  exact .sub _ _ _ _ hfunction

/-- An undefined name is located where it stands. -/
theorem undefined {s t : State} (hs : s.Like K t) (hspan : p.Like K q) (fault : Fault)
    {α : Type} [HasLike α] : Alike K (throw (s.locate p (s.raised fault)) : Eval α)
      (throw (t.locate q (t.raised fault))) :=
  .throw (locate hs hspan (raised hs rfl fun _ _ => rfl))

section

variable (h : NestedAlike K again again') (rounds more : Nat)

include h

theorem exprs {values values' : Array Value} (hvalues : Like K values values') {es fs : List Expr}
    (hexprs : es.Forall₂ (Expr.Like K) fs) :
    Alike K (Interpreter.exprs again values es) (Interpreter.exprs again' values' fs) := by
  induction hexprs generalizing values values' with
  | nil => exact .pure hvalues
  | cons he _ ih =>
      refine (h.expr he).bind fun v w hv => ih ?_
      simp only [Like, Array.toList_push]
      exact forall₂_append hvalues (.cons hv .nil)

theorem callee {e f : Expr} (he : e.Like K f) :
    Alike K (Interpreter.callee again e) (Interpreter.callee again' f) := by
  have hnested := h.expr he
  cases he with
  | global cell hspan =>
      refine .get fun s t hs => ?_
      rcases rel_cases (hs.globals.value? cell) with ⟨hv, hw⟩ | ⟨v, w, hv, hw, hvalue⟩ <;>
        rw [hv, hw]
      · exact undefined hs hspan _
      · exact .pure hvalue
  | _ => exact hnested

theorem exprValue {e f : Expr} (he : e.Like K f) : Alike K (Interpreter.exprValue rounds again e)
    (Interpreter.exprValue (rounds + more) again' f) := by
  cases he with
  | nil => exact .pure (like_refl K _)
  | bool => exact .pure (like_refl K _)
  | int => exact .pure (like_refl K _)
  | str => exact .pure (like_refl K _)
  | list _ hitems => exact (exprs h .nil hitems).bind fun _ _ hvalues => .pure (.list hvalues)
  | lexical ref => exact loadLexical ref.name
  | global cell => exact loadGlobal cell
  | call hspan hcallee hargs =>
      exact (callee h hcallee).bind fun _ _ hf => (exprs h .nil hargs).bind fun _ _ hvalues =>
        callValue h rounds more hf hvalues hspan
  | closure _ hfunction => exact closure hfunction
  | unary op _ hoperand =>
      refine (h.expr hoperand).bind fun v w hv => ?_
      rw [hv.unary op]
      exact orRaise _
  | binary op _ hleft hright =>
      refine (h.expr hleft).bind fun v w hv => ?_
      -- all operators but the two lazy ones evaluate their right side in any case
      have happlied : Alike K (do let b ← again (.expr _); Interpreter.orRaise (op.apply v b))
          (do let b ← again' (.expr _); Interpreter.orRaise (op.apply w b)) :=
        (h.expr hright).bind fun v' w' hv' => by
          rw [hv.binary op hv']
          exact orRaise _
      cases op with
      | and =>
          dsimp only
          rw [hv.isTruthy]
          split
          · exact h.expr hright
          · exact .pure hv
      | or =>
          dsimp only
          rw [hv.isTruthy]
          split
          · exact .pure hv
          · exact h.expr hright
      | _ => exact happlied

theorem expr {e f : Expr} (he : e.Like K f) : Alike K (Interpreter.expr rounds again e)
    (Interpreter.expr (rounds + more) again' f) :=
  located he.span (exprValue h rounds more he)

end

/-! ## Statements -/

theorem assignLexical (name : String) (hspan : p.Like K q) (hvalue : v.Like K w) :
    Alike K (Interpreter.assignLexical p name v) (Interpreter.assignLexical q name w) := by
  refine .get fun s t hs => ?_
  rw [hs.env.current, hs.env.definer?]
  split
  · refine Sim.update (fun s => { Restored.refl s with env := .assignIn s.env _ name v })
      fun {s t} hs _ => .inr ?_
    exact { hs with like := { hs.like with env := hs.like.env.assignIn _ name hvalue } }
  · exact undefined hs hspan _

theorem assignGlobal (cell : CellRef) (hvalue : v.Like K w) :
    Alike K (modify fun s => { s with globals := s.globals.set cell v })
      (modify fun s => { s with globals := s.globals.set cell w }) := by
  refine Sim.update (fun s => { Restored.refl s with }) fun {s t} hs _ => .inr ?_
  exact { hs with like := { hs.like with globals := hs.like.globals.set cell hvalue } }

section

variable (h : NestedAlike K again again') (rounds more : Nat)

include h

theorem inner {b c : Block} (hblock : b.Like K c) :
    Alike K (Interpreter.inner again b) (Interpreter.inner again' c) := by
  refine (scopedBlock h hblock).bind fun flow flow' hflow => ?_
  cases hflow with
  | normal _ => exact .pure (like_refl K _)
  | ret hvalue => exact .pure (.ret hvalue)

/-- A round of a loop. -/
theorem round {e f : Expr} (htest : e.Like K f) {b c : Block} (hblock : b.Like K c) :
    Alike K (do
      let value ← again (.expr e)
      if !value.isTruthy then return .done (.normal .nil)
      match ← Interpreter.scopedBlock again b with
      | .ret value => return .done (.ret value)
      | .normal _ => return .next () : Eval (Run.Step Unit Flow)) (do
      let value ← again' (.expr f)
      if !value.isTruthy then return .done (.normal .nil)
      match ← Interpreter.scopedBlock again' c with
      | .ret value => return .done (.ret value)
      | .normal _ => return .next ()) := by
  refine (h.expr htest).bind fun v w hv => ?_
  rw [hv.isTruthy]
  cases w.isTruthy with
  | false => exact .pure (like_refl K (Run.Step.done (Flow.normal .nil)))
  | true =>
      refine (scopedBlock h hblock).bind fun flow flow' hflow => ?_
      cases hflow with
      | normal _ => exact .pure rfl
      | ret hvalue => exact .pure (.ret hvalue)

theorem stmt {s t : Stmt} (hs : s.Like K t) : Alike K (Interpreter.stmt rounds again s)
    (Interpreter.stmt (rounds + more) again' t) := by
  cases hs with
  | define name _ he =>
      exact (h.expr he).bind fun _ _ hv => (define name hv).bind fun _ _ _ => .pure (like_refl K _)
  | assignLexical ref hspan he =>
      exact (h.expr he).bind fun _ _ hv => (assignLexical ref.name hspan hv).bind fun _ _ _ =>
        .pure (like_refl K _)
  | assignGlobal cell _ he =>
      exact (h.expr he).bind fun _ _ hv => (assignGlobal cell hv).bind fun _ _ _ =>
        .pure (like_refl K _)
  | expr he => exact (h.expr he).bind fun _ _ hv => .pure (.normal hv)
  | ret => exact .pure (like_refl K _)
  | retValue _ he => exact (h.expr he).bind fun _ _ hv => .pure (.ret hv)
  | block hblock => exact inner h hblock
  | cond _ htest hyes =>
      refine (h.expr htest).bind fun v w hv => ?_
      rw [hv.isTruthy]
      split
      · exact inner h hyes
      · exact .pure (like_refl K _)
  | condElse _ htest hyes hno =>
      refine (h.expr htest).bind fun v w hv => ?_
      rw [hv.isTruthy]
      split
      · exact inner h hyes
      · exact inner h hno
  | loop _ htest hblock =>
      exact .iterate (fun _ _ _ => round h htest hblock) (Nat.le_add_right _ _) (like_refl K ())

theorem stmts (hvalue : v.Like K w) {ss ts : List Stmt} (hstmts : ss.Forall₂ (Stmt.Like K) ts) :
    Alike K (Interpreter.stmts rounds again v ss)
      (Interpreter.stmts (rounds + more) again' w ts) := by
  induction hstmts generalizing v w with
  | nil => exact .pure (.normal hvalue)
  | cons hs _ ih =>
      refine (stmt h rounds more hs).bind fun flow flow' hflow => ?_
      cases hflow with
      | normal hvalue => exact ih hvalue
      | ret hvalue => exact .pure (.ret hvalue)

theorem block {b c : Block} (hblock : b.Like K c) : Alike K (Interpreter.block rounds again b)
    (Interpreter.block (rounds + more) again' c) :=
  withExits h hblock.span (stmts h rounds more (like_refl K Value.nil) hblock.stmts)

end

end Alike

/-! ## Nesting -/

/-- What the parts inside do alike, the whole does. -/
theorem NestedAlike.perform {again again' : Again} (h : NestedAlike K again again')
    (rounds more : Nat) :
    NestedAlike K (Interpreter.perform rounds again)
      (Interpreter.perform (rounds + more) again') where
  expr he := Alike.expr h rounds more he
  block hb := Alike.block h rounds more hb
  call hcallee hargs hspan := Alike.callValue h rounds more hcallee hargs hspan
  native native _ _ hargs := Alike.callNative h rounds more native hargs

/-- How the results of a part are compared. -/
@[reducible] def Work.hasLike {α : Type} : Work α → HasLike α
  | .expr _ => inferInstance
  | .block _ => inferInstance
  | .call .. => inferInstance
  | .native .. => inferInstance

theorem Work.eq_of_like {α : Type} (work : Work α) (hexact : K.exact) {a b : α}
    (h : work.hasLike.Like K a b) : a = b := by
  cases work with
  | expr e => exact Value.Like.eq hexact h
  | block b => exact Flow.Like.eq hexact h
  | call callee args span => exact Value.Like.eq hexact h
  | native native args => exact Value.Like.eq hexact h

/-- A part follows itself if all parts follow each other. -/
theorem NestedAlike.part {again again' : Again} (h : NestedAlike K again again') {α : Type}
    (work : Work α) : @Alike α work.hasLike K (again work) (again' work) := by
  cases work with
  | expr e => exact h.expr (.refl e)
  | block b => exact h.block (.refl b)
  | call callee args span => exact h.call (.same callee) (like_refl K args) (.refl span)
  | native native args => exact h.native native (like_refl K args)

/-- Every run follows another with the same room or more. -/
theorem run_alike (K : Comparison) (bound more : Nat) :
    NestedAlike K (run bound) (run (bound + more)) := by
  induction bound with
  | zero => exact ⟨fun _ => .cutOff, fun _ => .cutOff, fun _ _ _ => .cutOff, fun _ _ _ _ => .cutOff⟩
  | succ bound ih =>
      have hperform := ih.perform bound more
      rw [Nat.add_right_comm]
      constructor <;> intros <;> rw [run_succ, run_succ]
      · exact hperform.expr ‹_›
      · exact hperform.block ‹_›
      · exact hperform.call ‹_› ‹_› ‹_›
      · exact hperform.native _ ‹_›

end TwoPhase.Interpreter
