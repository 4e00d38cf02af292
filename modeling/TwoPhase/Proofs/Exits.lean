import TwoPhase.Proofs.Discipline.Code
import TwoPhase.Proofs.Inline

/-!
# Exits

A dispatch call does not run the hooks of `after_runtime` (`callDispatch_congr`), but queues them for
the innermost block at work.  They run when that block exits: each of them once, the last first,
whatever became of the statements and of each other (`exits_once`).

Blocks run inside blocks, and hooks run blocks and dispatch calls of their own.  What becomes of
hooks meanwhile is told by the log (`Dealings`).  Code queues hooks for the block that it runs in,
which wait on top of those that waited before, and it runs as many hooks as it has queued for the
blocks inside.  That is a discipline, so it is true of all runs.
-/

namespace TwoPhase

open Interpreter
open Run (Agrees Keeps)
open scoped List

/-- The block of a hook that runs when the block around the dispatch call exits. -/
def Hook.after? {B : Type} : Hook B → Option B
  | .atRuntime _ => none
  | .afterRuntime block => some block

namespace Interpreter

variable {α : Type} {s t u : State} {bound rounds : Nat} {again : Again} {span : Span}

/-! ## The log -/

namespace ExitEvent

/-- The number of blocks at work. -/
def level : ExitEvent → Nat
  | awaited exits _ => exits.length
  | invoked exits _ => exits.length

/-- A hook that was queued, if there were such a number of blocks at work. -/
def queued? (wanted : Nat → Bool) : ExitEvent → Option DeferredBlock
  | awaited exits block => if wanted exits.length then some block else none
  | invoked _ _ => none

/-- A hook that ran. -/
def invoked? : ExitEvent → Option DeferredBlock
  | awaited _ _ => none
  | invoked _ block => some block

end ExitEvent

/-- The hooks that were queued for the innermost of so many blocks, the last first. -/
def queuedAt (level : Nat) (events : List ExitEvent) : List DeferredBlock :=
  events.filterMap (·.queued? (· == level))

/-- The hooks that were queued for blocks inside that. -/
def queuedInside (level : Nat) (events : List ExitEvent) : List DeferredBlock :=
  events.filterMap (·.queued? (level < ·))

/-- The hooks that ran, the last first. -/
def invoked (events : List ExitEvent) : List DeferredBlock := events.filterMap (·.invoked?)

section

variable {level : Nat} {event : ExitEvent} {events later : List ExitEvent}

@[simp] theorem queuedAt_nil : queuedAt level [] = [] := rfl

@[simp] theorem queuedInside_nil : queuedInside level [] = [] := rfl

@[simp] theorem invoked_nil : invoked [] = [] := rfl

@[simp] theorem queuedAt_append :
    queuedAt level (later ++ events) = queuedAt level later ++ queuedAt level events :=
  List.filterMap_append

@[simp] theorem queuedInside_append :
    queuedInside level (later ++ events) = queuedInside level later ++ queuedInside level events :=
  List.filterMap_append

@[simp] theorem invoked_append :
    invoked (later ++ events) = invoked later ++ invoked events :=
  List.filterMap_append

/-- Nothing is queued for a block by what takes place inside another one in it. -/
theorem queuedAt_eq_nil (h : ∀ event ∈ events, level < event.level) : queuedAt level events = [] := by
  refine List.filterMap_eq_nil_iff.2 fun event hevent => ?_
  cases event with
  | awaited exits block =>
      have hlevel : exits.length ≠ level := Nat.ne_of_gt (h _ hevent)
      simp [ExitEvent.queued?, hlevel]
  | invoked exits block => rfl

/-- What is queued inside a block is queued for one at the next level, or inside that. -/
theorem queuedInside_perm (level : Nat) (events : List ExitEvent) :
    (queuedInside level events).Perm
      (queuedAt (level + 1) events ++ queuedInside (level + 1) events) := by
  induction events with
  | nil => exact .refl _
  | cons event events ih =>
      cases event with
      | invoked exits block => exact ih
      | awaited exits block =>
          simp only [queuedInside, queuedAt, List.filterMap_cons, ExitEvent.queued?,
            decide_eq_true_eq, beq_iff_eq] at ih ⊢
          rcases Nat.lt_trichotomy exits.length (level + 1) with hless | hequal | hmore
          · have houter : ¬level < exits.length := Nat.not_lt.2 (Nat.le_of_lt_succ hless)
            rw [if_neg houter, if_neg (Nat.ne_of_lt hless), if_neg (Nat.lt_asymm hless)]
            exact ih
          · rw [if_pos (hequal ▸ Nat.lt_succ_self level), if_pos hequal,
              if_neg (hequal ▸ Nat.lt_irrefl _)]
            exact ih.cons block
          · rw [if_pos (Nat.lt_of_succ_lt hmore), if_neg (Nat.ne_of_gt hmore), if_pos hmore]
            exact (ih.cons block).trans List.perm_middle.symm

end

/-! ## What becomes of hooks -/

/-- What became of hooks on the way from one state to another, the last first.  Some hooks were
`ran` on the way because they had waited for an exit before. -/
structure Dealings (s : State) (ran : List DeferredBlock) (events : List ExitEvent) (t : State) :
    Prop where
  /-- All of it is in the log. -/
  log : t.exitLog = events ++ s.exitLog
  /-- No block exited that was at work before. -/
  inside : ∀ event ∈ events, s.exits.length ≤ event.level
  /-- Hooks were queued for the innermost of those blocks, on top of those that waited. -/
  waiting : t.exits = s.exits.modifyHead (queuedAt s.exits.length events ++ ·)
  /-- Besides the given hooks, those ran that were queued for blocks inside, as often as that. -/
  balance : (invoked events).Perm (ran ++ queuedInside s.exits.length events)

namespace Dealings

variable {ran ran' : List DeferredBlock} {events later : List ExitEvent}

/-- Nothing became of any hook. -/
theorem none (hexits : t.exits = s.exits) (hlog : t.exitLog = s.exitLog) : Dealings s [] [] t where
  log := hlog
  inside := nofun
  waiting := by rw [hexits, queuedAt_nil]; exact (congrFun List.modifyHead_id _).symm
  balance := .refl _

theorem length_eq (h : Dealings s ran events t) : t.exits.length = s.exits.length := by
  rw [h.waiting, List.length_modifyHead]

theorem trans (h : Dealings s ran events t) (h' : Dealings t ran' later u) :
    Dealings s (ran ++ ran') (later ++ events) u where
  log := by rw [h'.log, h.log, List.append_assoc]
  inside event hevent := by
    rcases List.mem_append.1 hevent with hevent | hevent
    · exact h.length_eq ▸ h'.inside event hevent
    · exact h.inside event hevent
  waiting := by
    rw [h'.waiting, h.length_eq, h.waiting, List.modifyHead_modifyHead]
    congr 1
    funext waiting
    simp
  balance := by
    have hbalance := h'.balance
    rw [h.length_eq] at hbalance
    rw [invoked_append, queuedInside_append]
    generalize queuedInside s.exits.length later = inner' at hbalance ⊢
    have hfirst := h.balance
    generalize queuedInside s.exits.length events = inner at hfirst ⊢
    calc invoked later ++ invoked events
        _ ~ ran' ++ inner' ++ (ran ++ inner) := hbalance.append hfirst
        _ = ran' ++ (inner' ++ (ran ++ inner)) := List.append_assoc ..
        _ ~ ran' ++ (ran ++ (inner' ++ inner)) := (List.perm_append_comm_assoc ..).append_left _
        _ ~ ran ++ (ran' ++ (inner' ++ inner)) := List.perm_append_comm_assoc ..
        _ = ran ++ ran' ++ (inner' ++ inner) := (List.append_assoc ..).symm

/-- A hook is queued for the innermost block at work. -/
theorem await (s : State) (block : DeferredBlock) :
    Dealings s [] [.awaited s.exits block] (s.await block) where
  log := rfl
  inside event hevent := by
    cases List.mem_singleton.1 hevent
    exact Nat.le_refl _
  waiting := by
    have hqueued : queuedAt s.exits.length [.awaited s.exits block] = [block] := by
      simp [queuedAt, ExitEvent.queued?]
    rw [hqueued, State.await_exits]
  balance := by simp [queuedInside, invoked, ExitEvent.queued?, ExitEvent.invoked?]

/-- A hook runs that waited before. -/
theorem invoke (s : State) (block : DeferredBlock) :
    Dealings s [block] [.invoked s.exits block] (s.invoke block) where
  log := rfl
  inside event hevent := by
    cases List.mem_singleton.1 hevent
    exact Nat.le_refl _
  waiting := (congrFun List.modifyHead_id s.exits).symm
  balance := .refl _

/-- While a block is at work, the hooks that were queued for it wait on top of all others. -/
theorem opened_waiting (h : Dealings s.opened ran events t) :
    t.exits = queuedAt (s.exits.length + 1) events :: s.exits := by
  rw [h.waiting]
  exact congrArg (· :: s.exits) (List.append_nil _)

/-- A block exits when its statements have ended and the hooks that were queued for it have run. -/
theorem exit (h : Dealings s.opened [] events t)
    (hexit : Dealings t.closed (queuedAt (s.exits.length + 1) events) later u) :
    Dealings s [] (later ++ events) u := by
  have hclosed : t.closed.exits = s.exits := congrArg List.tail h.opened_waiting
  have hinside : ∀ event ∈ events, s.exits.length < event.level := h.inside
  have hwaiting := hexit.waiting
  have hlater := hexit.inside
  have hbalance := hexit.balance
  rw [hclosed] at hwaiting hlater hbalance
  refine ⟨?_, fun event hevent => ?_, ?_, ?_⟩
  · rw [hexit.log, List.append_assoc]
    exact congrArg _ h.log
  · rcases List.mem_append.1 hevent with hevent | hevent
    · exact hlater event hevent
    · exact Nat.le_of_lt (hinside event hevent)
  · rw [queuedAt_append, queuedAt_eq_nil hinside, List.append_nil]
    exact hwaiting
  · rw [invoked_append, queuedInside_append, List.nil_append]
    have hqueued := queuedInside_perm s.exits.length events
    have hbody : invoked events ~ queuedInside (s.exits.length + 1) events := h.balance
    generalize queuedInside s.exits.length later = inner at hbalance ⊢
    calc invoked later ++ invoked events
        _ ~ queuedAt (s.exits.length + 1) events ++ inner ++
              queuedInside (s.exits.length + 1) events := hbalance.append hbody
        _ ~ inner ++ queuedAt (s.exits.length + 1) events ++
              queuedInside (s.exits.length + 1) events := List.perm_append_comm.append_right _
        _ = inner ++ (queuedAt (s.exits.length + 1) events ++
              queuedInside (s.exits.length + 1) events) := List.append_assoc ..
        _ ~ inner ++ queuedInside s.exits.length events := hqueued.symm.append_left _

end Dealings

/-- What code does to a state at once queues one hook at most, and runs none. -/
theorem Change.dealings {P : Value → Prop} (h : Change P s t) : ∃ events, Dealings s [] events t := by
  cases h with
  | quiet hstore _ hlog => exact ⟨[], .none (congrArg Store.exits hstore) hlog⟩
  | putOff _ hput =>
      cases hput with
      | joined => exact ⟨[], .none rfl rfl⟩
      | opened _ _ hinjected =>
          obtain ⟨_, _, _, _, _, rfl⟩ := hinjected
          exact ⟨[], .none rfl rfl⟩
  | unwound depth =>
      rcases unwindTo_cases depth s with ⟨_, h⟩ | ⟨_, h⟩ <;> rw [h] <;> exact ⟨[], .none rfl rfl⟩
  | @await block _ => exact ⟨_, .await s block⟩
  | _ => exact ⟨[], .none rfl rfl⟩

/-- Hooks run one after the other, with all that they do. -/
theorem Invoking.dealings {blocks : List DeferredBlock}
    (h : Invoking (fun s t => ∃ events, Dealings s [] events t) s blocks t) :
    ∃ events, Dealings s blocks events t := by
  induction h with
  | nil => exact ⟨[], .none rfl rfl⟩
  | @cons s t u block blocks h _ ih =>
      obtain ⟨events, h⟩ := h
      obtain ⟨later, hrest⟩ := ih
      exact ⟨_, ((Dealings.invoke s block).trans h).trans hrest⟩

/-- The balance of hooks. -/
def Discipline.balanced : Discipline fun _ => True where
  Inv _ := True
  Leads s t := ∃ events, Dealings s [] events t
  kind := .all
  keeping _ := .all
  inv _ := trivial
  refl _ := ⟨[], .none rfl rfl⟩
  trans h h' := by
    obtain ⟨events, h⟩ := h
    obtain ⟨later, h'⟩ := h'
    exact ⟨_, h.trans h'⟩
  change _ h := h.dealings
  opens _ := trivial
  closes _ _ := trivial
  invokes _ _ := trivial
  exits _ h hinvoking := by
    obtain ⟨events, h⟩ := h
    rw [h.opened_waiting] at hinvoking
    obtain ⟨later, hinvoking⟩ := hinvoking.dealings
    exact ⟨_, h.exit hinvoking⟩
  loads _ _ := trivial
  loaded _ _ h := by
    obtain ⟨events, h⟩ := h
    exact ⟨events, h.log, h.inside, h.waiting, h.balance⟩
  failed _ _ h := by
    obtain ⟨events, h⟩ := h
    exact ⟨events, h.log, h.inside, h.waiting, h.balance⟩

theorem runDeferred_dealings {block : DeferredBlock} {ended : Except EvalError Value}
    (hrun : (runDeferred (run bound) block span).run? s = some (ended, t)) :
    ∃ events, Dealings s [] events t :=
  Agrees.leads (Discipline.Parts.runDeferred (Discipline.run_parts .balanced bound) trivial trivial
    span) hrun

/-! ## How a block ends -/

/-- The error that a hook failed with. -/
def failure? : Except EvalError Value → Option EvalError
  | .ok _ => none
  | .error e => some e

/-- How a block ends, given how its statements ended, and then the hooks that waited for it, in the
order in which they ran. -/
def exitResult (result : Except EvalError Flow) (ends : List (Except EvalError Value)) :
    Except EvalError Flow :=
  match result with
  | .error e => .error e
  | .ok flow =>
    match ends.findSome? failure? with
    | some e => .error e
    | none => .ok flow

theorem exitResult_nil (result : Except EvalError Flow) : exitResult result [] = result := by
  cases result <;> rfl

/-- The hooks can as well be taken one by one. -/
theorem exitResult_cons (result : Except EvalError Flow) (ended : Except EvalError Value)
    (ends : List (Except EvalError Value)) :
    exitResult result (ended :: ends) = exitResult (exitResult result [ended]) ends := by
  cases result with
  | error e => rfl
  | ok flow => cases ended <;> rfl

theorem runExits_cons_iff {result final : Except EvalError Flow} {block : DeferredBlock}
    {blocks : List DeferredBlock} :
    (runExits again span result (block :: blocks)).run? s = some (final, u) ↔
      ∃ ended t, (runDeferred again block span).run? (s.invoke block) = some (ended, t) ∧
        (runExits again span (exitResult result [ended]) blocks).run? t = some (final, u) := by
  have hbind : (runExits again span result (block :: blocks)).run? s =
      ((runDeferred again block span).run? (s.invoke block)).bind fun p =>
        (runExits again span (exitResult result [p.1]) blocks).run? p.2 := by
    unfold Run.run?
    rw [runExits_cons]
    cases runDeferred again block span (s.invoke block) with
    | value v t => cases result <;> rfl
    | error e t => cases result <;> rfl
    | cutOff => rfl
  rw [hbind, Option.bind_eq_some_iff, Prod.exists]

/-- Hooks run one after the other, each to its end.  What takes place meanwhile is balanced. -/
inductive Invoked (bound : Nat) (span : Span) :
    State → List DeferredBlock → List (Except EvalError Value) → State → Prop where
  | nil {s : State} : Invoked bound span s [] [] s
  | cons {s t u : State} {block : DeferredBlock} {blocks : List DeferredBlock}
      {ended : Except EvalError Value} {ends : List (Except EvalError Value)}
      {events : List ExitEvent}
      (hrun : (runDeferred (run bound) block span).run? (s.invoke block) = some (ended, t))
      (hmeanwhile : Dealings (s.invoke block) [] events t)
      (hrest : Invoked bound span t blocks ends u) :
      Invoked bound span s (block :: blocks) (ended :: ends) u

/-- When a block exits, the hooks that waited for it run in order, and the first error counts. -/
theorem runExits_iff {result final : Except EvalError Flow} {blocks : List DeferredBlock} :
    (runExits (run bound) span result blocks).run? s = some (final, u) ↔
      ∃ ends, Invoked bound span s blocks ends u ∧ final = exitResult result ends := by
  induction blocks generalizing s result with
  | nil =>
      have hend : (runExits (run bound) span result []).run? s = some (result, s) := by
        cases result <;> rfl
      rw [hend]
      constructor
      · rintro ⟨⟩
        exact ⟨[], .nil, (exitResult_nil final).symm⟩
      · rintro ⟨ends, h, rfl⟩
        cases h
        rw [exitResult_nil]
  | cons block blocks ih =>
      rw [runExits_cons_iff]
      constructor
      · rintro ⟨ended, t, hrun, hrest⟩
        obtain ⟨ends, hrest, hfinal⟩ := ih.1 hrest
        obtain ⟨events, hmeanwhile⟩ := runDeferred_dealings hrun
        exact ⟨ended :: ends, .cons hrun hmeanwhile hrest,
          hfinal.trans (exitResult_cons ..).symm⟩
      · rintro ⟨_, h, hfinal⟩
        cases h with
        | @cons _ t _ _ _ ended ends _ hrun _ hrest =>
            exact ⟨ended, t, hrun, ih.2 ⟨ends, hrest, hfinal.trans (exitResult_cons ..)⟩⟩

/-! ## What hooks leave alone -/

/-- A state in which given hooks wait. -/
def Waits (waiting : List (List DeferredBlock)) (s : State) : Prop := s.exits = waiting

namespace Waits

variable {waiting : List (List DeferredBlock)}

theorem update {f : State → State} (hf : ∀ s : State, (f s).exits = s.exits) :
    Keeps (Waits waiting) (modify f : Eval PUnit) :=
  Keeps.update fun s hs => (hf s).trans hs

theorem ensuring {body : Eval α} {cleanup : State → State} (h : Keeps (Waits waiting) body)
    (hf : ∀ s : State, (cleanup s).exits = s.exits) :
    Keeps (Waits waiting) (Run.ensuring body cleanup) :=
  Keeps.ensuring h fun s hs => (hf s).trans hs

theorem inCodeOf {unit : Option UnitId} {body : Eval α} (h : Keeps (Waits waiting) body) :
    Keeps (Waits waiting) (inCodeOf unit body) := by
  cases unit with
  | none => exact h
  | some id =>
      exact Keeps.get.bind fun _ => (update fun _ => by rfl).bind fun _ =>
        ensuring h fun _ => by rfl

theorem inFrame {frame : Frame} {parent : Option ScopeId} {body : Eval α}
    (h : Keeps (Waits waiting) body) : Keeps (Waits waiting) (inFrame frame parent body) := by
  have hpush : Keeps (Waits waiting) (pushFrame frame) := by
    intro s hs
    unfold pushFrame
    cases s.calls.push frame <;> exact hs
  have hscope : Keeps (Waits waiting) (inDetachedScope parent body) :=
    (update fun _ => by rfl).bind fun _ => ensuring h fun _ => by rfl
  exact hpush.bind fun _ => ensuring (hscope.mapError _) fun _ => by rfl

/-- A native sub that is called without arguments runs no code. -/
theorem callNative (native : Native) : Keeps (Waits waiting) (callNative rounds again native []) := by
  cases native with
  | builtin sub => cases sub <;> exact fun _ hs => hs
  | probe probe => cases probe <;> exact fun _ hs => hs

theorem bindParams (params : List String) (args : List Value) :
    Keeps (Waits waiting) (bindParams params args) := by
  induction params generalizing args with
  | nil => exact .pure _
  | cons param params ih =>
      cases args with
      | nil => exact .pure _
      | cons arg args => exact (update fun _ => by rfl).bind fun _ => ih args

section

variable (hblock : ∀ body, Keeps (Waits waiting) (again (.block body)))

include hblock

theorem callSub (sub : Sub) (args : List Value) (frame : Frame) :
    Keeps (Waits waiting) (callSub again sub args frame) := by
  have hscoped : Keeps (Waits waiting) (scopedBlock again sub.function.body) :=
    (update fun _ => by rfl).bind fun _ => ensuring (hblock _) fun _ => by rfl
  unfold Interpreter.callSub
  dsimp only
  split
  · exact fun _ hs => hs
  · refine Keeps.bind (inCodeOf (inFrame ((bindParams _ _).bind fun _ => hscoped))) fun flow => ?_
    cases flow <;> exact .pure _

variable (hnative : ∀ native, Keeps (Waits waiting) (again (.native native [])))

include hnative

theorem runDeferred (block : DeferredBlock) (span : Span) :
    Keeps (Waits waiting) (runDeferred again block span) := by
  unfold Interpreter.runDeferred
  dsimp only
  split
  · exact callSub hblock _ _ _
  · exact inFrame (hnative _)
  · exact fun _ hs => hs

theorem runExits (span : Span) (result : Except EvalError Flow) (blocks : List DeferredBlock) :
    Keeps (Waits waiting) (runExits again span result blocks) := by
  induction blocks generalizing result with
  | nil => exact .ofExcept _
  | cons block blocks ih =>
      exact (update fun _ => by rfl).bind fun _ =>
        (runDeferred hblock hnative block span).attempt.bind fun _ => ih _

end

end Waits

theorem withExits_iff {body : Eval Flow} {final : Except EvalError Flow} :
    (withExits again span body).run? s = some (final, t) ↔
      ∃ result u, body.run? s.opened = some (result, u) ∧
        (runExits again span result (u.exits.headD [])).run? u.closed = some (final, t) := by
  have hbind : (withExits again span body).run? s = (body.run? s.opened).bind fun p =>
      (runExits again span p.1 (p.2.exits.headD [])).run? p.2.closed := by
    unfold Run.run?
    rw [withExits_apply]
    cases body s.opened <;> rfl
  rw [hbind, Option.bind_eq_some_iff, Prod.exists]

/-- A block queues nothing for the block around it, and neither does a hook that is a native sub. -/
theorem run_waits (bound : Nat) (waiting : List (List DeferredBlock)) :
    (∀ b, Keeps (Waits waiting) (run bound (.block b))) ∧
      ∀ native, Keeps (Waits waiting) (run bound (.native native [])) := by
  induction bound with
  | zero => exact ⟨fun _ _ _ => trivial, fun _ _ _ => trivial⟩
  | succ bound ih =>
      refine ⟨fun b => Keeps.iff_run?.2 fun {s t final} hs hrun => ?_, fun native => ?_⟩
      · rw [run_succ] at hrun
        obtain ⟨result, u, hbody, hexits⟩ := withExits_iff.1 hrun
        obtain ⟨events, hdealings⟩ := Agrees.leads (Discipline.Parts.stmts
          (Discipline.run_parts .balanced bound) trivial trivial b.stmts) hbody
        have hclosed : Waits waiting u.closed :=
          (congrArg List.tail hdealings.opened_waiting).trans hs
        exact Keeps.iff_run?.1 (Waits.runExits ih.1 ih.2 b.span result _) hclosed hexits
      · rw [run_succ]
        exact Waits.callNative native

/-- A hook queues nothing for the block that it runs in. -/
theorem runDeferred_exits {block : DeferredBlock} {ended : Except EvalError Value}
    (hrun : (runDeferred (run bound) block span).run? s = some (ended, t)) : t.exits = s.exits :=
  Keeps.iff_run?.1 (Waits.runDeferred (run_waits bound s.exits).1 (run_waits bound s.exits).2
    block span) rfl hrun

/-! ## Blocks -/

/-- A block runs its statements.  Then the hooks run that were queued for it meanwhile, each of them
once and the last first, and the block ends. -/
structure ExitsOnce (bound : Nat) (span : Span) (body whole : Eval Flow) (s : State) : Prop where
  /-- While the statements run, the hooks that are queued for the block wait, and no hooks run but
  those queued for blocks inside. -/
  meanwhile : ∀ {result : Except EvalError Flow} {u : State},
    body.run? s.opened = some (result, u) → ∃ events, Dealings s.opened [] events u
  /-- The block ends when the statements and all those hooks have ended, the first error first. -/
  ends : ∀ {final : Except EvalError Flow} {t : State}, whole.run? s = some (final, t) ↔
    ∃ result u events ends, body.run? s.opened = some (result, u) ∧
      Dealings s.opened [] events u ∧
      Invoked bound span u.closed (queuedAt (s.exits.length + 1) events) ends t ∧
      final = exitResult result ends
  /-- The hooks that wait for other blocks still do, and no more than those. -/
  others : ∀ {final : Except EvalError Flow} {t : State}, whole.run? s = some (final, t) →
    t.exits = s.exits

theorem withExits_once {body : Eval Flow} {Q : Flow → Prop}
    (hbody : ∀ t, Discipline.balanced.Runs t body body Q) (span : Span) (s : State) :
    ExitsOnce bound span body (withExits (run bound) span body) s where
  meanwhile hrun := Agrees.leads (hbody _) hrun
  ends {final t} := by
    rw [withExits_iff]
    constructor
    · rintro ⟨result, u, hrun, hexits⟩
      obtain ⟨events, hdealings⟩ := Agrees.leads (hbody _) hrun
      rw [hdealings.opened_waiting] at hexits
      obtain ⟨ends, hinvoked, hfinal⟩ := runExits_iff.1 hexits
      exact ⟨result, u, events, ends, hrun, hdealings, hinvoked, hfinal⟩
    · rintro ⟨result, u, events, ends, hrun, hdealings, hinvoked, hfinal⟩
      refine ⟨result, u, hrun, ?_⟩
      rw [hdealings.opened_waiting]
      exact runExits_iff.2 ⟨ends, hinvoked, hfinal⟩
  others {final t} hrun := by
    obtain ⟨result, u, hstmts, hexits⟩ := withExits_iff.1 hrun
    obtain ⟨events, hdealings⟩ := Agrees.leads (hbody _) hstmts
    have hclosed : Waits s.exits u.closed := congrArg List.tail hdealings.opened_waiting
    have hwaits := run_waits bound s.exits
    exact Keeps.iff_run?.1 (Waits.runExits hwaits.1 hwaits.2 span result _) hclosed hexits

/-! ## Dispatch calls -/

section

variable {fn : DispatchFn}

theorem run?_reachHook {hook : Hook DeferredBlock} {ended : Except EvalError Unit}
    (hrun : (reachHook (run bound) span hook).run? s = some (ended, t)) :
    t.exits = s.exits.modifyHead (hook.after?.toList ++ ·) ∧
      ∀ e, ended = .error e → ∃ block, hook = .atRuntime block ∧
        (runDeferred (run bound) block span).run? s = some (.error e, t) := by
  cases hook with
  | afterRuntime block =>
      cases hrun
      exact ⟨s.await_exits block, nofun⟩
  | atRuntime block =>
      have hends : ∃ result : Except EvalError Value,
          (runDeferred (run bound) block span).run? s = some (result, t) ∧
            ∀ e, ended = .error e → result = .error e := by
        simp only [reachHook, Run.run?, Run.bind_apply] at hrun ⊢
        cases hend : runDeferred (run bound) block span s with
        | value v u =>
            rw [hend] at hrun
            cases hrun
            exact ⟨_, rfl, nofun⟩
        | error e u =>
            rw [hend] at hrun
            cases hrun
            exact ⟨_, rfl, by rintro _ ⟨⟩; rfl⟩
        | cutOff =>
            rw [hend] at hrun
            cases hrun
      obtain ⟨result, hdeferred, hresult⟩ := hends
      refine ⟨?_, fun e he => ⟨block, rfl, hresult e he ▸ hdeferred⟩⟩
      rw [runDeferred_exits hdeferred]
      exact (congrFun List.modifyHead_id _).symm

/-- The hooks on the list of a dispatch function. -/
def State.listed (s : State) (fn : DispatchFn) : List (Hook DeferredBlock) :=
  (s.deferral.pending.hooks fn).toList

/-- Two ways to run nested parts do the same for the hooks on a list that do not wait. -/
def AlikeAtOnce (fn : DispatchFn) (span : Span) (again again' : Again) : Prop :=
  ∀ (t : State) (block : DeferredBlock), .atRuntime block ∈ t.listed fn →
    runDeferred again block span t = runDeferred again' block span t

theorem reachHook_congr {again' : Again} {hook : Hook DeferredBlock}
    (h : AlikeAtOnce fn span again again') (hlisted : hook ∈ s.listed fn) :
    reachHook again span hook s = reachHook again' span hook s := by
  cases hook with
  | atRuntime block => simp only [reachHook, Run.bind_apply, h s block hlisted]
  | afterRuntime block => rfl

/-- A visit runs no hook that waits for an exit: nothing but the others makes a difference to it. -/
theorem visitFrom_congr {again' : Again} (h : AlikeAtOnce fn span again again') (index : Nat) :
    visitFrom rounds fn (reachHook again span) index s =
      visitFrom rounds fn (reachHook again' span) index s := by
  induction rounds generalizing index s with
  | zero => rfl
  | succ rounds ih =>
      rw [visitFrom_succ, visitFrom_succ]
      cases hat : (s.deferral.pending.hooks fn)[index]? with
      | none => rfl
      | some hook =>
          have hlisted : hook ∈ s.listed fn := (Array.mem_of_getElem? hat).val
          simp only [Run.bind_apply, reachHook_congr h hlisted]
          cases reachHook again' span hook s with
          | value _ t => exact ih (index + 1)
          | error e t => rfl
          | cutOff => rfl

/-- While a block is at work, a dispatch call runs no hook that waits for an exit. -/
theorem callDispatch_congr {again' : Again} (hexits : s.exits ≠ [])
    (h : AlikeAtOnce fn span again again') :
    callDispatch rounds again fn span s = callDispatch rounds again' fn span s := by
  have hvisit : visitFrom rounds fn (reachHook again span) 0 =
      visitFrom rounds fn (reachHook again' span) 0 := funext fun _ => visitFrom_congr h 0
  rw [callDispatch_apply hexits, callDispatch_apply hexits, hvisit]

/-- Lists of hooks only grow. -/
theorem reachHook_listed {hook : Hook DeferredBlock} {ended : Except EvalError Unit}
    (hrun : (reachHook (run bound) span hook).run? s = some (ended, t)) :
    s.listed fn <+: t.listed fn :=
  (Keeps.iff_run?.1 ((run_respects bound s).reachHook span hook) (.refl s) hrun).core.hooks fn

/-- A visit reaches the rest of the list in order, until there is no more, or until a hook fails
that does not wait. -/
theorem visitFrom_reaches {done : List (Hook DeferredBlock)} {ended : Except EvalError Unit}
    (hdone : done <+: s.listed fn)
    (hrun : (visitFrom rounds fn (reachHook (run bound) span) done.length).run? s =
      some (ended, t)) :
    ∃ reached : List (Hook DeferredBlock),
      t.exits = s.exits.modifyHead ((reached.filterMap Hook.after?).reverse ++ ·) ∧
      (ended = .ok () → t.listed fn = done ++ reached) ∧
      ∀ e, ended = .error e → ∃ block u, done ++ reached ++ [.atRuntime block] <+: t.listed fn ∧
        (runDeferred (run bound) block span).run? u = some (.error e, t) := by
  -- on the rounds that are left; the hooks that are done are the place in the list
  induction rounds generalizing done s with
  | zero => cases hrun
  | succ rounds ih =>
      rw [Run.run?, visitFrom_succ, ← Array.getElem?_toList] at hrun
      cases hat : (s.listed fn)[done.length]? with
      | none =>
          have hall : done = s.listed fn :=
            hdone.eq_of_length_le (List.getElem?_eq_none_iff.1 hat)
          rw [State.listed] at hat
          rw [hat] at hrun
          cases hrun
          refine ⟨[], (congrFun List.modifyHead_id _).symm, fun _ => ?_, by rintro _ ⟨⟩⟩
          rw [List.append_nil, hall]
      | some hook =>
          have hnext := Pending.append_prefix_of_getElem? hdone hat
          rw [State.listed] at hat
          rw [hat] at hrun
          simp only [Run.bind_apply] at hrun
          cases hend : reachHook (run bound) span hook s with
          | cutOff =>
              rw [hend] at hrun
              cases hrun
          | error e u =>
              have hreach := Run.run?_eq_error.2 hend
              rw [hend] at hrun
              cases hrun
              obtain ⟨hexits, hfails⟩ := run?_reachHook hreach
              obtain ⟨block, rfl, hfailed⟩ := hfails e rfl
              refine ⟨[], hexits, by rintro ⟨⟩, ?_⟩
              rintro _ ⟨⟩
              rw [List.append_nil]
              exact ⟨block, s, hnext.trans (reachHook_listed hreach), hfailed⟩
          | value _ u =>
              have hreach := Run.run?_eq_ok.2 hend
              rw [hend] at hrun
              have hrest : (visitFrom rounds fn (reachHook (run bound) span)
                  (done ++ [hook]).length).run? u = some (ended, t) := by
                rw [List.length_append]
                exact hrun
              obtain ⟨reached, hexits, hall, hfails⟩ :=
                ih (hnext.trans (reachHook_listed hreach)) hrest
              refine ⟨hook :: reached, ?_, fun hok => ?_, fun e he => ?_⟩
              · rw [hexits, (run?_reachHook hreach).1, List.modifyHead_modifyHead]
                congr 1
                funext waiting
                cases hook <;> simp [List.filterMap_cons, Hook.after?]
              · rw [hall hok, List.append_assoc, List.singleton_append]
              · obtain ⟨block, v, hlisted, hfailed⟩ := hfails e he
                rw [List.append_assoc done, List.singleton_append] at hlisted
                exact ⟨block, v, hlisted, hfailed⟩

/-- A whole visit starts at the first hook of the list. -/
theorem visit_reaches {ended : Except EvalError Unit}
    (hrun : (visitFrom rounds fn (reachHook (run bound) span) 0).run? s = some (ended, t)) :
    ∃ reached : List (Hook DeferredBlock),
      t.exits = s.exits.modifyHead ((reached.filterMap Hook.after?).reverse ++ ·) ∧
      (ended = .ok () → t.listed fn = reached) ∧
      ∀ e, ended = .error e → ∃ block u, reached ++ [.atRuntime block] <+: t.listed fn ∧
        (runDeferred (run bound) block span).run? u = some (.error e, t) := by
  have hstart : [] <+: s.listed fn := List.nil_prefix
  simpa only [List.nil_append] using visitFrom_reaches hstart hrun

/-- How a dispatch call ends that has reached some hooks. -/
inductive DispatchEnds (bound : Nat) (fn : DispatchFn) (span : Span) (s : State)
    (reached : List (Hook DeferredBlock)) : Except EvalError Value → State → Prop where
  /-- They are all on the list. -/
  | all {t : State} (h : t.listed fn = reached) : DispatchEnds bound fn span s reached (.ok .nil) t
  /-- The next one on the list has failed. -/
  | failed {block : DeferredBlock} {u v : State} {e e' : EvalError}
      (hnext : reached ++ [.atRuntime block] <+: v.listed fn)
      (hrun : (runDeferred (run bound) block span).run? u = some (.error e, v)) :
      DispatchEnds bound fn span s reached (.error e') { v with calls := v.calls.pop }
  /-- There was no room for the call, so there are none. -/
  | refused {fault : Fault} (h : s.calls.push ⟨dispatchName, .dispatch, some span⟩ = .error fault)
      (hreached : reached = []) : DispatchEnds bound fn span s reached (.error (s.raised fault)) s

/-- While a block is at work, a dispatch call queues for it those of the hooks it reaches that wait
for an exit. -/
theorem callDispatch_reaches (hexits : s.exits ≠ []) {ended : Except EvalError Value}
    (hrun : (callDispatch bound (run bound) fn span).run? s = some (ended, t)) :
    ∃ reached events, DispatchEnds bound fn span s reached ended t ∧ Dealings s [] events t ∧
      queuedAt s.exits.length events = (reached.filterMap Hook.after?).reverse := by
  have hbalanced : Discipline.balanced.Runs s (callDispatch bound (run bound) fn span)
      (callDispatch bound (run bound) fn span) fun _ => True :=
    Discipline.Parts.callDispatch (Discipline.run_parts .balanced bound) trivial fn span
  obtain ⟨events, hdealings⟩ := Agrees.leads hbalanced hrun
  -- what waits in the end shows what was queued
  have hqueued : ∀ {blocks : List DeferredBlock}, t.exits = s.exits.modifyHead (blocks ++ ·) →
      queuedAt s.exits.length events = blocks := by
    intro blocks hblocks
    obtain ⟨waiting, outer, hs⟩ := List.exists_cons_of_ne_nil hexits
    have hwaiting := hdealings.waiting.symm.trans hblocks
    rw [hs] at hwaiting ⊢
    exact List.append_cancel_right (List.head_eq_of_cons_eq hwaiting)
  rw [Run.run?, callDispatch_apply hexits] at hrun
  cases hpush : s.calls.push ⟨dispatchName, .dispatch, some span⟩ with
  | error fault =>
      simp only [Run.bind_apply, withFrame, pushFrame, hpush] at hrun
      cases hrun
      exact ⟨[], events, .refused hpush rfl, hdealings,
        hqueued (congrFun List.modifyHead_id _).symm⟩
  | ok calls =>
      let entered : State := { s with calls }
      simp only [Run.bind_apply, withFrame, pushFrame, hpush, Run.ensuring, traced,
        Run.mapError] at hrun
      cases hvisit : visitFrom bound fn (reachHook (run bound) span) 0 entered with
      | cutOff =>
          rw [hvisit] at hrun
          cases hrun
      | value _ u =>
          obtain ⟨reached, hwaiting, hall, _⟩ := visit_reaches (Run.run?_eq_ok.2 hvisit)
          rw [hvisit] at hrun
          cases hrun
          exact ⟨reached, events, .all (hall rfl), hdealings, hqueued hwaiting⟩
      | error e u =>
          obtain ⟨reached, hwaiting, _, hfails⟩ := visit_reaches (Run.run?_eq_error.2 hvisit)
          obtain ⟨block, v, hnext, hfailed⟩ := hfails e rfl
          rw [hvisit] at hrun
          cases hrun
          exact ⟨reached, events, .failed hnext hfailed, hdealings, hqueued hwaiting⟩

/-- A dispatch call as the statements of a block. -/
def dispatchFlow (rounds : Nat) (again : Again) (fn : DispatchFn) (span : Span) : Eval Flow := do
  withFrame ⟨dispatchName, .dispatch, some span⟩
    (traced (visitFrom rounds fn (reachHook again span) 0))
  return .normal .nil

/-- While a block is at work, a dispatch call is part of its statements. -/
theorem dispatchFlow_apply (hexits : s.exits ≠ []) :
    (Flow.normal <$> callDispatch rounds again fn span) s = dispatchFlow rounds again fn span s := by
  rw [map_eq_pure_bind, Run.bind_apply, callDispatch_apply hexits, dispatchFlow, Run.bind_apply,
    Run.bind_apply]
  cases withFrame ⟨dispatchName, .dispatch, some span⟩
    (traced (visitFrom rounds fn (reachHook again span) 0)) s <;> rfl

/-- While there is none, it is the block that the hooks wait for. -/
theorem callDispatch_alone (hexits : s.exits = []) :
    callDispatch rounds again fn span s = (do
      let flow ← withExits again span (dispatchFlow rounds again fn span)
      return flow.value : Eval Value) s := by
  have hempty : s.exits.isEmpty = true := by rw [hexits]; rfl
  simp only [callDispatch, dispatchFlow, Run.bind_apply, Run.get_apply, hempty, if_true,
    visitAll_eq]

theorem dispatchFlow_runs (fn : DispatchFn) (span : Span) (s : State) :
    Discipline.balanced.Runs s (dispatchFlow rounds (run bound) fn span)
      (dispatchFlow rounds (run bound) fn span) (· = .normal .nil) := by
  rw [dispatchFlow, ← visitAll_eq]
  exact Discipline.Runs.bind (.withFrame trivial fun t _ _ => .mapError
    (Discipline.Parts.visitAll (Discipline.run_parts .balanced bound) trivial fn span) _)
    fun _ t _ _ => .pure trivial rfl

theorem exitResult_eq_ok {result : Except EvalError Flow} {ends : List (Except EvalError Value)}
    {flow : Flow} (h : exitResult result ends = .ok flow) : result = .ok flow := by
  cases result with
  | error e => cases h
  | ok first =>
      unfold exitResult at h
      dsimp only at h
      split at h
      · cases h
      · exact h

theorem ExitsOnce.congr {body body' whole whole' : Eval Flow}
    (h : ExitsOnce bound span body whole s) (hbody : body'.run? s.opened = body.run? s.opened)
    (hwhole : whole'.run? s = whole.run? s) : ExitsOnce bound span body' whole' s where
  meanwhile hrun := h.meanwhile (hbody.symm.trans hrun)
  ends := by
    rw [hwhole, hbody]
    exact h.ends
  others hrun := h.others (hwhole.symm.trans hrun)

theorem callDispatch_once (hexits : s.exits = []) (fn : DispatchFn) (span : Span) :
    ExitsOnce bound span (Flow.normal <$> callDispatch bound (run bound) fn span)
      (Flow.normal <$> callDispatch bound (run bound) fn span) s := by
  have hruns : ∀ t, Discipline.balanced.Runs t (dispatchFlow bound (run bound) fn span)
      (dispatchFlow bound (run bound) fn span) (· = .normal .nil) := dispatchFlow_runs fn span
  have honce : ExitsOnce bound span _ _ s := withExits_once hruns span s
  refine honce.congr ?_ ?_
  · have hopened : s.opened.exits ≠ [] := List.cons_ne_nil _ _
    rw [Run.run?, Run.run?, dispatchFlow_apply hopened]
  · have hflow : ∀ flow t, withExits (run bound) span (dispatchFlow bound (run bound) fn span) s =
        .value flow t → flow = .normal .nil := by
      intro flow t hend
      obtain ⟨result, u, events, ends, hrun, -, -, hfinal⟩ :=
        honce.ends.1 (Run.run?_eq_ok.2 hend)
      rw [exitResult_eq_ok hfinal.symm, Run.run?_eq_ok] at hrun
      exact ((hruns _).value hrun).2
    rw [map_eq_pure_bind, Run.run?, Run.bind_apply, callDispatch_alone hexits, Run.bind_apply,
      Run.run?]
    cases hend : withExits (run bound) span (dispatchFlow bound (run bound) fn span) s with
    | value flow t =>
        rw [hflow flow t hend]
        rfl
    | error e t => rfl
    | cutOff => rfl

end

/-! ## Exits -/

/-- Whatever is run, as many hooks run as are queued meanwhile for the blocks inside.  Every block
runs those that dispatch calls have queued for it, each once and the last first, when its statements
have ended, and the first error is its own.  A dispatch call queues the hooks it reaches that wait
for an exit, and runs none but the others; without a block at work it is itself the block that they
wait for. -/
theorem exits_once (bound : Nat) (s : State) :
    (∀ {α : Type} (work : Work α) {result : Except EvalError α} {t : State},
      (run bound work).run? s = some (result, t) → ∃ events, Dealings s [] events t) ∧
    (∀ b : Block, ExitsOnce bound b.span (stmts bound (run bound) .nil b.stmts)
      (run (bound + 1) (.block b)) s) ∧
    (s.exits ≠ [] → ∀ fn span ended t,
      (callDispatch bound (run bound) fn span).run? s = some (ended, t) →
      ∃ reached events, DispatchEnds bound fn span s reached ended t ∧ Dealings s [] events t ∧
        queuedAt s.exits.length events = (reached.filterMap Hook.after?).reverse) ∧
    (s.exits ≠ [] → ∀ fn span (again again' : Again), AlikeAtOnce fn span again again' →
      callDispatch bound again fn span s = callDispatch bound again' fn span s) ∧
    (s.exits = [] → ∀ fn span, ExitsOnce bound span
      (Flow.normal <$> callDispatch bound (run bound) fn span)
      (Flow.normal <$> callDispatch bound (run bound) fn span) s) := by
  have hparts := fun {α : Type} => Discipline.run_parts .balanced bound (α := α)
  refine ⟨fun work _ _ hrun => Agrees.leads (hparts work s trivial work.of_all) hrun, fun b => ?_,
    fun hexits fn span ended t => callDispatch_reaches hexits,
    fun hexits fn span again again' => callDispatch_congr hexits, callDispatch_once⟩
  rw [run_succ]
  exact withExits_once (fun t => Discipline.Parts.stmts hparts trivial trivial b.stmts) b.span s

/-- A hook fails, and the one behind it runs all the same. -/
example : ((Session.Request.runSource
    "begin { after_runtime(fn() { print(2); }); after_runtime(fn() { die(); }); } print(1);").run 30
      (Session.start .default)).errorWith (fun _ t => t.output = .buffer "1\n2\n") = true := by
  decide +kernel

end Interpreter

end TwoPhase
