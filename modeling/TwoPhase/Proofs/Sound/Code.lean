import TwoPhase.Proofs.Sound.Native

/-!
# Runs of sound code agree

Every part of a program runs sound parts at sound states, as long as these give sound results.  So
runs that put the same questions to two ways of running nested parts get the same answers, if those
ways agree on sound work.
-/

namespace TwoPhase.Interpreter

open Run (Agrees)

variable {s t : State} {floor rounds : Nat} {again again' : Again} {text : List Char}
  {scopes : List Parser.LexicalScope}

/-! ## Where code is at work -/

/-- A sound state with code at work in scopes that introduce no variables meanwhile. -/
structure State.At (floor : Nat) (text : List Char) (scopes : List Parser.LexicalScope)
    (s : State) : Prop where
  sound : s.Sound
  works : s.Works text scopes
  above : s.env.current.index < floor
  size : floor ≤ s.env.heap.size

theorem State.At.after (h : s.At floor text scopes) (hst : s.After floor t) :
    t.At floor text scopes :=
  ⟨hst.sound, h.works.after hst h.above, hst.env.current ▸ h.above,
    Nat.le_trans h.size hst.env.size⟩

/-- A sound state in whose innermost scope the statements of a block introduce variables. -/
structure State.In (floor : Nat) (text : List Char) (scopes : List Parser.LexicalScope)
    (s : State) : Prop where
  sound : s.Sound
  works : s.Works text scopes
  current : s.env.current.index = floor

theorem State.In.at (h : s.In floor text scopes) : s.At s.env.heap.size text scopes :=
  ⟨h.sound, h.works, s.env.current_lt, Nat.le_refl _⟩

theorem State.In.size (h : s.In floor text scopes) : floor ≤ s.env.heap.size :=
  h.current ▸ Nat.le_of_lt s.env.current_lt

theorem State.In.after (h : s.In floor text scopes) (hst : s.After s.env.heap.size t) :
    t.In floor text scopes :=
  ⟨hst.sound, h.works.after hst s.env.current_lt, hst.env.current ▸ h.current⟩

/-- A variable that is introduced as it is declared. -/
theorem State.In.define {l : Parser.LexicalScope} {outer : List Parser.LexicalScope} {v : Value}
    (h : s.In floor text (l :: outer)) (name : String) (hv : v.Sound s) :
    s.After floor { s with env := s.env.define name v } ∧
      State.In floor text (l.declare name :: outer) { s with env := s.env.define name v } := by
  have hdefine : s.After floor { s with env := s.env.define name v } :=
    .define h.sound name hv (Nat.le_of_eq h.current.symm)
  exact ⟨hdefine, hdefine.sound, ⟨h.works.unit, h.works.env.define trivial name v⟩, h.current⟩

namespace SoundParts

variable (h : SoundParts again again')

/-! ## Calls -/

/-- Parameters are declared and introduced one by one. -/
theorem bindParams {params : List String} {args : List Value} {l : Parser.LexicalScope}
    {outer : List Parser.LexicalScope} (hs : s.In floor text (l :: outer))
    (hargs : ∀ arg ∈ args, arg.Sound s) (hlength : params.length = args.length) :
    Runs floor s (bindParams params args) (bindParams params args)
      fun _ t => t.In floor text (params.foldl Parser.LexicalScope.declare l :: outer) := by
  induction params generalizing args l s with
  | nil => exact Runs.pure hs.sound hs
  | cons param params ih =>
      cases args with
      | nil => cases hlength
      | cons arg args =>
          obtain ⟨hafter, hdefined⟩ := hs.define param (hargs arg List.mem_cons_self)
          refine Agrees.bind (Q := fun _ t => t.In floor text (l.declare param :: outer) ∧
            ∀ arg ∈ args, arg.Sound t) (.update hafter ⟨hdefined, fun other hother => ?_⟩)
            fun _ t _ ht => ih ht.1 ht.2 (Nat.succ.inj hlength)
          exact (hargs other (List.mem_cons_of_mem _ hother)).outlived hafter.outlived

include h

section

variable (hs : s.Sound) (hfloor : floor ≤ s.env.heap.size)

include hs hfloor

theorem callSub {sub : Sub} {args : List Value} (hsub : sub.Sound s)
    (hargs : ∀ arg ∈ args, arg.Sound s) (frame : Frame) :
    Runs floor s (callSub again sub args frame) (callSub again' sub args frame)
      fun v t => v.Sound t := by
  obtain @⟨id, text, kind, scopes, hunit, htext, hfunction, hcaptured⟩ := hsub
  unfold Interpreter.callSub
  dsimp only
  split
  · exact Agrees.bind (Q := fun _ _ => False) (Runs.raise hs nofun) fun _ _ _ h => h.elim
  rename_i hlength
  have hlength : sub.function.params.length = args.length := by simpa using hlength
  refine Agrees.bind (Q := fun flow t => flow.value.Sound t) ?_ fun flow t ht hflow => ?_
  · rw [hunit]
    refine Runs.lower ?_ hfloor
    refine Runs.inCodeOf hs lasting_value fun hcode => Runs.withFrame hcode lasting_value
      fun calls hframe => Runs.traced ?_
    refine Runs.inScope hframe lasting_value rfl fun hscope => ?_
    have hentered : State.In s.env.heap.size text (.empty kind :: scopes)
        { s with currentUnit := some id, calls, env := s.env.pushDetached sub.captured } :=
      ⟨hscope, ⟨⟨id, text, rfl, htext, List.prefix_rfl⟩,
        .pushDetached fun hbarrier => .inr (hcaptured hbarrier)⟩, rfl⟩
    have houtlived : s.env.Outlived (s.env.pushDetached sub.captured) :=
      .enter s.env _ (s.env.emptyScope_parent_lt _)
    refine (bindParams hentered (fun arg harg => (hargs arg harg).outlived ?_) hlength).bind
      fun _ t ht hin => ?_
    · exact ⟨houtlived, .of_units rfl rfl⟩
    · exact Runs.scopedBlock ht.sound h hin.works hfunction.body hin.size
  · cases flow with
    | ret value => exact Runs.pure ht.sound hflow
    | normal value => exact Runs.pure ht.sound .nil

theorem runDeferred {block : DeferredBlock} (hblock : block.callable.Sound s) (span : Span) :
    Runs floor s (runDeferred again block span) (runDeferred again' block span)
      fun v t => v.Sound t := by
  unfold Interpreter.runDeferred
  dsimp only
  split
  · rename_i sub hsub
    exact h.callSub hs hfloor (hsub ▸ hblock).of_sub (fun _ harg => absurd harg List.not_mem_nil) _
  · refine Runs.withFrame hs lasting_value fun calls hframe => Runs.traced ?_
    refine Runs.inScope hframe lasting_value rfl fun hscope => ?_
    exact Runs.nested h (.native _ []) hscope (fun _ harg => absurd harg List.not_mem_nil)
      (Nat.le_trans hfloor (s.env.size_le_enter _ (s.env.emptyScope_parent_lt _)))
  · exact Runs.raise hs nofun

/-! ## Blocks that wait -/

/-- Hooks run one after the other, whatever came of those before. -/
theorem runExits {result : Except EvalError Flow} {blocks : List DeferredBlock}
    (hblocks : ∀ block ∈ blocks, block.callable.Sound s)
    (hresult : match result with
      | .ok flow => flow.value.Sound s
      | .error e => EvalError.Sound s e) (span : Span) :
    Runs floor s (runExits again span result blocks) (runExits again' span result blocks)
      fun flow t => flow.value.Sound t := by
  induction blocks generalizing s result with
  | nil => exact .ofExcept (.refl hs) (by cases result <;> exact hresult)
  | cons block blocks ih =>
      have hinvoke : s.After floor (s.invoke block) := .quiet hs rfl rfl rfl rfl
      refine Agrees.bind (Q := fun _ t => s.After floor t ∧ floor ≤ t.env.heap.size)
        (.update hinvoke ⟨hinvoke, hfloor⟩) fun _ t _ ht => ?_
      obtain ⟨hst, hsize⟩ := ht
      have hblock := (hblocks block List.mem_cons_self).outlived hst.outlived
      refine (Agrees.attempt (h.runDeferred hst.sound hsize hblock span)).bind
        fun ended u htu hended => ?_
      have hsu := hst.trans htu
      refine ih hsu.sound (Nat.le_trans hfloor hsu.env.size) (fun other hother =>
        (hblocks other (List.mem_cons_of_mem _ hother)).outlived hsu.outlived) ?_
      cases result with
      | error e => exact EvalError.Sound.settles hsu.settles hresult
      | ok flow =>
          cases ended with
          | error e => exact hended
          | ok v => exact hresult.outlived hsu.outlived

/-- Code that others may wait for. -/
theorem withExits {body body' : Eval Flow} (span : Span)
    (hbody : ∀ t, s.After s.env.heap.size t → t.store.exits = [] :: s.exits →
      Runs floor t body body' fun flow u => flow.value.Sound u) :
    Runs floor s (withExits again span body) (withExits again' span body')
      fun flow t => flow.value.Sound t := by
  refine Agrees.bind (Q := fun _ t => s.After s.env.heap.size t ∧ t.store.exits = [] :: s.exits)
    (.update (.openExits hs) ⟨.openExits hs, rfl⟩) fun _ t ht hopened => ?_
  refine (Agrees.attempt (hbody t hopened.1 hopened.2)).bind fun result u hu hresult => ?_
  refine Agrees.bind (Q := fun blocks v => (∀ block ∈ blocks, block.callable.Sound v) ∧
    match result with
      | .ok flow => flow.value.Sound v
      | .error e => EvalError.Sound v e)
    (.modifyGet (.closeExits hu.sound) ⟨fun block hblock => ?_, ?_⟩) fun blocks v hv hblocks => ?_
  · have hafter : u.After floor { u with exits := u.exits.tail } := .closeExits hu.sound
    refine Value.Sound.outlived (s := u) ?_ hafter.outlived
    cases hexits : u.exits with
    | nil =>
        rw [hexits] at hblock
        cases hblock
    | cons waiting outer =>
        rw [hexits] at hblock
        have hwaiting : waiting ∈ u.exits := hexits ▸ List.mem_cons_self
        exact hu.sound.values _ (.waiting hwaiting hblock)
  · have hafter : u.After floor { u with exits := u.exits.tail } := .closeExits hu.sound
    cases result with
    | ok flow => exact hresult.outlived hafter.outlived
    | error e => exact EvalError.Sound.settles hafter.settles hresult
  · exact h.runExits hv.sound (Nat.le_trans hfloor (ht.trans (hu.trans hv)).env.size) hblocks.1
      hblocks.2 span

/-! ## Dispatch -/

theorem reachHook {hook : Hook DeferredBlock} (hhook : hook.block.callable.Sound s) (span : Span) :
    Runs floor s (reachHook again span hook) (reachHook again' span hook) fun _ _ => True := by
  cases hook with
  | atRuntime block =>
      exact (h.runDeferred hs hfloor hhook span).bind fun _ t ht _ => Runs.pure ht.sound trivial
  | afterRuntime block => exact .update (.awaitExit hs hhook) trivial

/-- The hooks of a list are visited in order. -/
theorem visitAll (fn : DispatchFn) (span : Span) :
    Runs floor s
      (Pending.visitAll (fun s => s.deferral.pending) rounds fn (Interpreter.reachHook again span))
      (Pending.visitAll (fun s => s.deferral.pending) rounds fn (Interpreter.reachHook again' span))
      fun _ _ => True := by
  refine Agrees.iterate (J := fun _ t => t.Sound ∧ floor ≤ t.env.heap.size)
    (fun index t ht => .get ?_) rounds 0 ⟨hs, hfloor⟩
  split
  · exact Runs.pure ht.1 trivial
  · rename_i hook hat
    have hhook : hook.block.callable.Sound t :=
      ht.1.values _ (.pending ⟨fn, hook, Array.mem_of_getElem? hat, rfl⟩)
    exact (h.reachHook ht.1 ht.2 hhook span).bind fun _ u hu _ =>
      Runs.pure hu.sound ⟨hu.sound, Nat.le_trans ht.2 hu.env.size⟩

theorem callDispatch (fn : DispatchFn) (span : Span) :
    Runs floor s (callDispatch rounds again fn span) (callDispatch rounds again' fn span)
      fun v t => v.Sound t := by
  have hbody : ∀ t : State, t.Sound → floor ≤ t.env.heap.size → Runs floor t
      (do
        withFrame ⟨dispatchName, .dispatch, some span⟩ (traced (Pending.visitAll
          (fun s => s.deferral.pending) rounds fn (Interpreter.reachHook again span)))
        return Flow.normal .nil)
      (do
        withFrame ⟨dispatchName, .dispatch, some span⟩ (traced (Pending.visitAll
          (fun s => s.deferral.pending) rounds fn (Interpreter.reachHook again' span)))
        return Flow.normal .nil)
      fun flow u => flow.value.Sound u := by
    intro t ht hsize
    refine Agrees.bind (Q := fun _ _ => True) (Runs.withFrame ht (fun _ _ _ _ h => h)
      fun calls hframe => Runs.traced (h.visitAll hframe hsize fn span))
      fun _ u hu _ => Runs.pure hu.sound .nil
  refine .get ?_
  dsimp only
  split
  · refine (h.withExits hs hfloor span fun t ht _ => hbody t ht.sound
      (Nat.le_trans hfloor ht.env.size)).bind fun flow u hu hflow => Runs.pure hu.sound hflow
  · exact (hbody s hs hfloor).bind fun flow u hu hflow => Runs.pure hu.sound hflow

theorem callValue {callee : Value} {args : List Value} (hcallee : callee.Sound s)
    (hargs : ∀ arg ∈ args, arg.Sound s) (span : Span) :
    Runs floor s (callValue rounds again callee args span)
      (callValue rounds again' callee args span) fun v t => v.Sound t := by
  unfold Interpreter.callValue
  split
  · exact h.callSub hs hfloor hcallee.of_sub hargs _
  · exact Runs.nested h (.native _ args) hs hargs hfloor
  · split
    · exact h.callDispatch hs hfloor _ span
    · exact Runs.raise hs nofun
  · exact Runs.raise hs nofun

end

/-! ## Expressions -/

/-- A nested expression of the code at work. -/
theorem nestedExpr (hs : s.At floor text scopes) {e : Expr} (he : e.Sound text scopes) :
    Runs floor s (again (.expr e)) (again' (.expr e)) fun v t => v.Sound t :=
  Runs.nested h (.expr e) hs.sound ⟨text, scopes, hs.works, he⟩ hs.size

theorem exprs (hs : s.At floor text scopes) {es : List Expr}
    (hes : ∀ e ∈ es, e.Sound text scopes) {values : Array Value}
    (hvalues : ∀ v ∈ values, v.Sound s) :
    Runs floor s (exprs again values es) (exprs again' values es)
      fun values t => ∀ v ∈ values, v.Sound t := by
  induction es generalizing s values with
  | nil => exact Runs.pure hs.sound hvalues
  | cons e es ih =>
      refine (h.nestedExpr hs (hes e List.mem_cons_self)).bind fun value t ht hvalue => ?_
      refine ih (hs.after ht) (fun e he => hes e (List.mem_cons_of_mem _ he)) fun v hv => ?_
      rcases Array.mem_push.1 hv with hv | rfl
      · exact (hvalues v hv).outlived ht.outlived
      · exact hvalue

end SoundParts

theorem Runs.loadGlobal (hs : s.Sound) (cell : CellRef) :
    Runs floor s (loadGlobal cell) (loadGlobal cell) fun v t => v.Sound t := by
  refine .get ?_
  split
  · exact Runs.raise hs nofun
  · rename_i hv
    exact Runs.pure hs (hs.values _ (.global ⟨cell, hv⟩))
  · exact Runs.raise hs nofun

/-- A lexical name gives the value of the variable that it finds, -/
theorem loadLexical_of_finds {name : String} {steps : Nat} {owner : ScopeId} {v : Variable}
    (h : s.env.Finds name s.env.current steps owner v) :
    loadLexical name s = .value v.value s := by
  have hlookup : s.env.lookup? name = some v.value := h.lookup
  simp only [loadLexical, Run.bind_apply, Run.get_apply, hlookup, Run.pure_apply]

/-- and this variable is given the values that are assigned to it. -/
theorem assignLexical_of_finds {name : String} {steps : Nat} {owner : ScopeId} {v : Variable}
    (h : s.env.Finds name s.env.current steps owner v) (span : Span) (value : Value) :
    assignLexical span name value s =
      .value ⟨⟩ { s with env := s.env.assignIn owner name value } := by
  simp only [assignLexical, Run.bind_apply, Run.get_apply, h.definer, Run.modify_apply]

/-- The values of variables are sound. -/
theorem State.Sound.found (hs : s.Sound) {name : String} {start owner : ScopeId} {steps : Nat}
    {v : Variable} (h : s.env.Finds name start steps owner v) : v.value.Sound s := by
  obtain ⟨scope, hscope, hvar⟩ := Option.bind_eq_some_iff.1 h.found
  exact hs.values _ (.lexical ⟨owner.index, scope, name, v, hscope, hvar, rfl⟩)

/-- A closure captures the scopes of the code that makes it. -/
theorem Runs.closure (hs : s.At floor text scopes) {function : Function}
    (hfunction : function.Sound text .closure scopes) :
    Runs floor s (closure function) (closure function) fun v t => v.Sound t := by
  have hfresh : s.After floor { s with nextId := s.nextId + 1 } :=
    .quiet hs.sound rfl rfl rfl rfl
  refine Agrees.bind (Q := fun _ t => t.At floor text scopes)
    (.modifyGet hfresh (hs.after hfresh)) fun id t _ ht => ?_
  have hcapture : t.After floor { t with env := t.env.capture.2 } := .capture ht.sound
  refine Agrees.bind (Q := fun scope u => scope = u.env.current ∧ u.At floor text scopes ∧
    scope.index < u.env.kept) (.modifyGet hcapture ⟨rfl, ht.after hcapture, ?_⟩)
    fun scope u _ hu => .get ?_
  · exact Nat.lt_of_lt_of_le (Nat.lt_succ_self _) (Nat.le_max_right _ _)
  · obtain ⟨rfl, hu, hkept⟩ := hu
    obtain ⟨unit, more, hcurrent, hmore, hbegins⟩ := hu.works.unit
    exact Runs.pure hu.sound (.sub ⟨hcurrent, hmore, hfunction.mono hbegins,
      fun _ => ⟨rfl, _, rfl, hkept, hu.works.env.captured⟩⟩)

namespace SoundParts

variable (h : SoundParts again again')

include h

theorem callee (hs : s.At floor text scopes) {e : Expr} (he : e.Sound text scopes) :
    Runs floor s (callee again e) (callee again' e) fun v t => v.Sound t := by
  unfold Interpreter.callee
  split
  · rename_i cell
    refine .get ?_
    split
    · rename_i hv
      exact Runs.pure hs.sound (hs.sound.values _ (.global ⟨_, hv⟩))
    · obtain ⟨id, hcurrent, hplaces⟩ := hs.works.places he.span
      have herror : EvalError.Sound s (s.raised (.undefinedSub cell.name)) :=
        State.sound_raised fun hspecial => by cases hspecial
      exact .throw (.refl hs.sound) (State.sound_locate herror hcurrent hplaces)
  · exact h.nestedExpr hs he

theorem exprValue (hs : s.At floor text scopes) {e : Expr} (he : e.Sound text scopes) :
    Runs floor s (exprValue rounds again e) (exprValue rounds again' e)
      fun v t => v.Sound t := by
  cases he with
  | nil => exact Runs.pure hs.sound .nil
  | bool => exact Runs.pure hs.sound (.bool _)
  | int => exact Runs.pure hs.sound (.int _)
  | str => exact Runs.pure hs.sound (.str _)
  | list _ hitems =>
      exact (h.exprs hs hitems (fun _ hv => absurd hv (Array.not_mem_empty _))).bind
        fun values t ht hvalues => Runs.pure ht.sound (.list hvalues)
  | lexical _ href =>
      obtain ⟨_, _, v, hfinds, _⟩ := hs.works.env.finds href
      have hload := loadLexical_of_finds hfinds
      refine .of_ends rfl (fun a t hrun => ?_) fun e t hrun => nomatch hload.symm.trans hrun
      cases hload.symm.trans hrun
      exact ⟨.refl hs.sound, hs.sound.found hfinds⟩
  | global => exact Runs.loadGlobal hs.sound _
  | call _ hcallee hargs =>
      refine (h.callee hs hcallee).bind fun f t ht hf => ?_
      refine (h.exprs (hs.after ht) hargs (fun _ hv => absurd hv (Array.not_mem_empty _))).bind
        fun values u hu hvalues => ?_
      exact h.callValue hu.sound (hs.after (ht.trans hu)).size (hf.outlived hu.outlived)
        (fun arg harg => hvalues arg (Array.mem_toList_iff.1 harg)) _
  | closure _ hfunction => exact Runs.closure hs hfunction
  | unary _ hoperand =>
      exact (h.nestedExpr hs hoperand).bind fun v t ht _ =>
        Runs.orRaise ht.sound (UnaryOp.simple_apply _ v)
  | @binary _ _ op _ _ _ hleft hright =>
      refine (h.nestedExpr hs hleft).bind fun a t ht ha => ?_
      have hboth : Runs floor t (again (.expr _)) (again' (.expr _)) fun v u => v.Sound u :=
        h.nestedExpr (hs.after ht) hright
      cases op with
      | and =>
          dsimp only
          split
          · exact hboth
          · exact Runs.pure ht.sound ha
      | or =>
          dsimp only
          split
          · exact Runs.pure ht.sound ha
          · exact hboth
      | _ => exact hboth.bind fun b u hu _ => Runs.orRaise hu.sound (BinaryOp.simple_apply _ a b)

/-- Errors are located in the innermost expression that they pass through. -/
theorem expr (hs : s.At floor text scopes) {e : Expr} (he : e.Sound text scopes) :
    Runs floor s (expr rounds again e) (expr rounds again' e) fun v t => v.Sound t :=
  (h.exprValue hs he).located hs.works he.span

/-! ## Statements -/

theorem inner (hs : s.At floor text scopes) {kind : Parser.ScopeKind} {body : Block}
    (hbody : body.Sound text kind scopes) :
    Runs floor s (inner again body) (inner again' body) fun flow t => flow.value.Sound t := by
  refine (Runs.scopedBlock hs.sound h hs.works hbody hs.size).bind fun flow t ht hflow => ?_
  cases flow with
  | ret value => exact Runs.pure ht.sound hflow
  | normal value => exact Runs.pure ht.sound .nil

end SoundParts

/-- What introduces no variables leaves a block where it is. -/
theorem Runs.inBlock {α : Type} {body body' : Eval α} {Q : α → State → Prop}
    (h : Runs s.env.heap.size s body body' Q) (hs : s.In floor text scopes) :
    Runs floor s body body' fun a t => Q a t ∧ t.In floor text scopes :=
  h.weaken (fun _ hst => hst.mono hs.size) (fun _ _ hst ha => ⟨ha, hs.after hst⟩)
    fun _ _ _ he => he

namespace SoundParts

variable (h : SoundParts again again')

include h

/-- The test of a statement. -/
theorem test (hs : s.In floor text scopes) {e : Expr} (he : e.Sound text scopes) :
    Runs floor s (again (.expr e)) (again' (.expr e))
      fun v t => v.Sound t ∧ t.In floor text scopes :=
  (h.nestedExpr hs.at he).inBlock hs

theorem branch (hs : s.In floor text scopes) {body : Block}
    (hbody : body.Sound text .block scopes) :
    Runs floor s (Interpreter.inner again body) (Interpreter.inner again' body)
      fun flow t => flow.value.Sound t ∧ t.In floor text scopes :=
  (h.inner hs.at hbody).inBlock hs

theorem loop (hs : s.In floor text scopes) {span : Span} {test : Expr} {body : Block}
    (htest : test.Sound text scopes) (hbody : body.Sound text .block scopes) :
    Runs floor s (stmt rounds again (.loop span test body))
      (stmt rounds again' (.loop span test body))
      fun flow t => flow.value.Sound t ∧ t.In floor text scopes := by
  refine Agrees.iterate (J := fun _ t => t.In floor text scopes) (fun _ t ht => ?_) rounds () hs
  refine (h.test ht htest).bind fun value u _ hu => ?_
  split
  · exact Runs.pure hu.2.sound ⟨.nil, hu.2⟩
  · refine ((Runs.scopedBlock hu.2.sound h hu.2.works hbody (Nat.le_refl _)).inBlock hu.2).bind
      fun flow v _ hv => ?_
    cases flow with
    | ret value => exact Runs.pure hv.2.sound hv
    | normal value => exact Runs.pure hv.2.sound hv.2

theorem stmt (hs : s.In floor text scopes) {statement : Stmt}
    (hstmt : statement.Sound text scopes) :
    Runs floor s (stmt rounds again statement) (stmt rounds again' statement)
      fun flow t => flow.value.Sound t ∧ t.In floor text (statement.scopesBehind scopes) := by
  cases hstmt with
  | @define _ span name value _ hvalue =>
      refine (h.test hs hvalue).bind fun v t _ ht => ?_
      have hdefine : t.After floor { t with env := t.env.define name v } :=
        .define ht.2.sound name ht.1 (Nat.le_of_eq ht.2.current.symm)
      have hdefined : State.In floor text ((Stmt.define span name value).scopesBehind scopes)
          { t with env := t.env.define name v } := by
        cases scopes with
        | nil => exact ⟨hdefine.sound, ⟨ht.2.works.unit, .nil⟩, ht.2.current⟩
        | cons l outer => exact (ht.2.define name ht.1).2
      exact Agrees.bind
        (Q := fun _ u => u.In floor text ((Stmt.define span name value).scopesBehind scopes))
        (.update hdefine hdefined) fun _ u _ hu => Runs.pure hu.sound ⟨.nil, hu⟩
  | @assignLexical _ span ref _ _ href hvalue =>
      refine (h.test hs hvalue).bind fun v t _ ht => ?_
      refine Agrees.bind (Q := fun _ u => u.In floor text scopes) ⟨rfl, ?_⟩
        fun _ u _ hu => Runs.pure hu.sound ⟨.nil, hu⟩
      obtain ⟨_, owner, _, hfinds, _⟩ := ht.2.works.env.finds href
      rw [assignLexical_of_finds hfinds]
      exact ⟨.assign ht.2.sound owner ref.name ht.1, ht.2.after (.assign ht.2.sound owner _ ht.1)⟩
  | @assignGlobal _ _ cell _ _ hvalue =>
      refine (h.test hs hvalue).bind fun v t _ ht => ?_
      exact Agrees.bind (Q := fun _ u => u.In floor text scopes)
        (.update (.set ht.2.sound cell ht.1) (ht.2.after (.set ht.2.sound cell ht.1)))
        fun _ u _ hu => Runs.pure hu.sound ⟨.nil, hu⟩
  | expr he => exact (h.test hs he).bind fun v t _ ht => Runs.pure ht.2.sound ht
  | @ret _ _ value _ hvalue =>
      cases value with
      | none => exact Runs.pure hs.sound ⟨.nil, hs⟩
      | some e => exact (h.test hs (hvalue e rfl)).bind fun v t _ ht => Runs.pure ht.2.sound ht
  | block hbody => exact h.branch hs hbody
  | @cond _ _ _ _ no _ htest hyes hno =>
      refine (h.test hs htest).bind fun v t _ ht => ?_
      split
      · exact h.branch ht.2 hyes
      · cases no with
        | none => exact Runs.pure ht.2.sound ⟨.nil, ht.2⟩
        | some body => exact h.branch ht.2 (hno body rfl)
  | loop _ htest hbody => exact h.loop hs htest hbody

/-- Statements that end normally have introduced all that they declare. -/
theorem stmts (hs : s.In floor text scopes) {list : List Stmt}
    {behind : List Parser.LexicalScope} (hlead : Stmt.Lead text scopes list behind) {last : Value}
    (hlast : last.Sound s) :
    Runs floor s (stmts rounds again last list) (stmts rounds again' last list)
      fun flow t => flow.value.Sound t ∧ ∀ v, flow = .normal v → t.In floor text behind := by
  induction list generalizing s scopes last with
  | nil =>
      cases hlead
      exact Runs.pure hs.sound ⟨hlast, fun _ _ => hs⟩
  | cons statement list ih =>
      cases hlead with
      | cons hstmt hmore =>
          refine (h.stmt hs hstmt).bind fun flow t _ ht => ?_
          cases flow with
          | normal value => exact ih ht.2 hmore ht.1
          | ret value => exact Runs.pure ht.2.sound ⟨ht.1, nofun⟩

theorem block (hs : s.Sound) {kind : Parser.ScopeKind}
    (hworks : s.Works text (.empty kind :: scopes)) {b : Block} (hb : b.Sound text kind scopes) :
    Runs s.env.current.index s (block rounds again b) (block rounds again' b)
      fun flow t => flow.value.Sound t := by
  cases hb with
  | mk _ hlead =>
      refine h.withExits hs (Nat.le_of_lt s.env.current_lt) _ fun t hst _ => ?_
      have hin : t.In s.env.current.index text (.empty kind :: scopes) :=
        ⟨hst.sound, hworks.after hst s.env.current_lt, congrArg _ hst.env.current⟩
      exact (h.stmts hin hlead .nil).weaken (fun _ h => h) (fun _ _ _ h => h.1) fun _ _ _ h => h

/-! ## Nesting -/

/-- Parts that run sound parts, run them soundly, and depend on nothing else. -/
theorem perform : SoundParts (perform rounds again) (perform rounds again') := by
  intro α work s hs hwork
  cases work with
  | expr e =>
      obtain ⟨text, scopes, hworks, he⟩ := hwork
      exact h.expr ⟨hs, hworks, s.env.current_lt, Nat.le_refl _⟩ he
  | block b =>
      obtain ⟨text, kind, scopes, hworks, hb⟩ := hwork
      exact h.block hs hworks hb
  | call callee args span => exact h.callValue hs (Nat.le_refl _) hwork.1 hwork.2 span
  | native native args => exact h.callNative hs (Nat.le_refl _) hwork native

end SoundParts

/-- Sound work leads to sound values, or sound errors. -/
theorem run_sound : ∀ bound, SoundParts (run bound) (run bound)
  | 0, _, _, _, _, _ => ⟨rfl, trivial⟩
  | bound + 1, _, work, s, hs, hwork => by
    simpa only [run_succ] using SoundParts.perform (run_sound bound) work s hs hwork

/-- So it depends on sound work only. -/
theorem SoundParts.of_agree {bound : Nat}
    (hsame : ∀ {α : Type} (work : Work α) (s : State), s.Sound → work.Sound s →
      again work s = run bound work s) : SoundParts (run bound) again := by
  intro α work s hs hwork
  exact ⟨hsame work s hs hwork, (run_sound bound work s hs hwork).2⟩

end TwoPhase.Interpreter
