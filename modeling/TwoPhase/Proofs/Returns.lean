import TwoPhase.Proofs.Exits
import TwoPhase.Proofs.Parser.Standing

/-!
# A `return` leaves the function around it

A block that is run may end at a `return`.  Then the statement is the block's own, in plain blocks,
in those of `if` and `while`, but in no function inside (`Reaches`).  The blocks around it are left
one after the other, the innermost first, and as each of them exits, the hooks that wait for it run
(`Leaves`).  The call of the function takes the value.

A hook may fail.  Then the value is lost, the hooks of the other blocks run all the same, and the
call ends with the first of their errors.

Since the parser rejects a `return` that has no function around it, units and `begin` blocks never
end at one.
-/

namespace TwoPhase

open Interpreter

namespace Interpreter

variable {bound rounds : Nat} {s t u : State}

/-! ## Where a `return` is reached -/

/-- In a scope of its own. -/
def State.entered (s : State) : State := { s with env := s.env.push }

/-- Outside the innermost scope. -/
def State.exited (s : State) : State := { s with env := s.env.pop }

/-- Runs a block in the scope that was entered for it, and leaves the scope. -/
def leaving (again : Again) (body : Block) : Eval Flow :=
  Run.ensuring (again (.block body)) State.exited

theorem leaving_eq_value {again : Again} {body : Block} {flow : Flow} :
    leaving again body s = .value flow t ↔
      ∃ u, again (.block body) s = .value flow u ∧ t = u.exited := by
  constructor
  · intro hrun
    cases hend : again (.block body) s with
    | value flow' u =>
        rw [leaving, Run.ensuring, hend] at hrun
        cases hrun
        exact ⟨u, rfl, rfl⟩
    | _ =>
        rw [leaving, Run.ensuring, hend] at hrun
        cases hrun
  · rintro ⟨u, hrun, rfl⟩
    rw [leaving, Run.ensuring, hrun]
    rfl

theorem scopedBlock_apply (again : Again) (body : Block) (s : State) :
    scopedBlock again body s = leaving again body s.entered := rfl

/-- A loop goes through rounds that end normally. -/
inductive Passes (bound : Nat) (test : Expr) (body : Block) : Nat → State → State → Prop where
  | none {s : State} : Passes bound test body 0 s s
  | round {s t u v : State} {k : Nat} {value last : Value}
      (htest : run bound (.expr test) s = .value value t) (htrue : value.isTruthy = true)
      (hbody : leaving (run bound) body t.entered = .value (.normal last) u)
      (hrest : Passes bound test body k u v) : Passes bound test body (k + 1) s v

/-- A statement comes to run a block that it has, in a scope of its own. -/
inductive Enters (bound : Nat) : Stmt → Block → State → State → Prop where
  | block {body : Block} {s : State} : Enters bound (.block body) body s s.entered
  | yes {span : Span} {test : Expr} {body : Block} {no : Option Block} {s t : State} {value : Value}
      (htest : run bound (.expr test) s = .value value t) (htrue : value.isTruthy = true) :
      Enters bound (.cond span test body no) body s t.entered
  | no {span : Span} {test : Expr} {yes body : Block} {s t : State} {value : Value}
      (htest : run bound (.expr test) s = .value value t) (hfalse : value.isTruthy = false) :
      Enters bound (.cond span test yes (some body)) body s t.entered
  | loop {span : Span} {test : Expr} {body : Block} {s t u : State} {value : Value} {k : Nat}
      (hpasses : Passes bound test body k s t) (hrounds : k < bound)
      (htest : run bound (.expr test) t = .value value u) (htrue : value.isTruthy = true) :
      Enters bound (.loop span test body) body s u.entered

/-- A run of a block, in the scope that was entered for it, comes to a `return` of the block's own
with a value.  The path has the blocks around the statement, the innermost first: how deep each of
them may nest, and its span. -/
inductive Reaches : Nat → Block → State → Value → List (Nat × Span) → State → Prop where
  | own {bound : Nat} {span place : Span} {before rest : List Stmt} {e : Option Expr}
      {s t u : State} {last v : Value}
      (hbefore : stmts bound (run bound) .nil before s.opened = .value (.normal last) t)
      (hreturn : stmt bound (run bound) (.ret place e) t = .value (.ret v) u) :
      Reaches (bound + 1) (.mk span (before ++ .ret place e :: rest)) s v [(bound, span)] u
  | inner {bound : Nat} {span : Span} {before rest : List Stmt} {stmt : Stmt} {body : Block}
      {s t t' u : State} {last v : Value} {path : List (Nat × Span)}
      (hbefore : stmts bound (run bound) .nil before s.opened = .value (.normal last) t)
      (henters : Enters bound stmt body t t') (hinner : Reaches bound body t' v path u) :
      Reaches (bound + 1) (.mk span (before ++ stmt :: rest)) s v (path ++ [(bound, span)]) u

theorem Enters.hasBlock {stmt : Stmt} {body : Block} (h : Enters bound stmt body s t) :
    stmt.HasBlock body := by
  cases h with
  | block => exact .block
  | yes => exact .yes
  | no => exact .no
  | loop => exact .loop

/-- The statement stands in the block. -/
theorem Reaches.returns {b : Block} {v : Value} {path : List (Nat × Span)}
    (h : Reaches bound b s v path u) : b.Returns := by
  induction h with
  | own => exact .own (List.mem_append_right _ List.mem_cons_self)
  | inner _ henters _ ih =>
      exact .inner (List.mem_append_right _ List.mem_cons_self) henters.hasBlock ih

/-! ## Statements -/

theorem inner_apply (again : Again) (body : Block) (s : State) :
    inner again body s = match leaving again body s.entered with
      | .value (.ret v) t => .value (.ret v) t
      | .value (.normal _) t => .value (.normal .nil) t
      | .error e t => .error e t
      | .cutOff => .cutOff := by
  simp only [inner, Run.bind_apply, scopedBlock_apply]
  cases leaving again body s.entered with
  | value flow t => cases flow <;> rfl
  | error e t => rfl
  | cutOff => rfl

theorem inner_eq_leaving {again : Again} {body : Block}
    (hnormal : ∀ last u, leaving again body s.entered ≠ .value (.normal last) u) :
    inner again body s = leaving again body s.entered := by
  rw [inner_apply]
  cases hrun : leaving again body s.entered with
  | value flow u =>
      cases flow with
      | normal last => exact absurd hrun (hnormal last u)
      | ret v => rfl
  | error e u => rfl
  | cutOff => rfl

/-- A round of a loop. -/
def loopRound (again : Again) (test : Expr) (body : Block) (_ : Unit) :
    Eval (Run.Step Unit Flow) := do
  let value ← again (.expr test)
  if !value.isTruthy then return .done (.normal .nil)
  match ← scopedBlock again body with
  | .ret value => return .done (.ret value)
  | .normal _ => return .next ()

theorem stmt_loop (again : Again) (span : Span) (test : Expr) (body : Block) :
    stmt rounds again (.loop span test body) = Run.iterate rounds (loopRound again test body) () :=
  rfl

/-- In a round the block runs, if the test is passed. -/
theorem loopRound_apply {again : Again} {test : Expr} {value : Value} (body : Block)
    (htest : again (.expr test) s = .value value t) (htrue : value.isTruthy = true) :
    loopRound again test body () s = match leaving again body t.entered with
      | .value (.ret v) u => .value (.done (.ret v)) u
      | .value (.normal _) u => .value (.next ()) u
      | .error e u => .error e u
      | .cutOff => .cutOff := by
  simp only [loopRound, Run.bind_apply, htest, htrue, Bool.not_true, Bool.false_eq_true, if_false,
    scopedBlock_apply]
  cases leaving again body t.entered with
  | value flow u => cases flow <;> rfl
  | error e u => rfl
  | cutOff => rfl

/-- The rounds that were gone through may be left out. -/
theorem Passes.iterate {test : Expr} {body : Block} {k more : Nat}
    (h : Passes bound test body k s t) (hrounds : rounds = k + more) :
    Run.iterate rounds (loopRound (run bound) test body) () s
      = Run.iterate more (loopRound (run bound) test body) () t := by
  subst hrounds
  induction h with
  | none => rw [Nat.zero_add]
  | @round s t u v k value last htest htrue hbody _ ih =>
      have hround : loopRound (run bound) test body () s = .value (.next ()) u := by
        rw [loopRound_apply body htest htrue, hbody]
      rw [Nat.add_right_comm, Run.iterate, hround]
      exact ih

/-- A statement ends as the block does that it comes to run, unless that ends normally. -/
theorem Enters.stmt_apply {stmt : Stmt} {body : Block} (h : Enters bound stmt body s t)
    (hnormal : ∀ last u, leaving (run bound) body t ≠ .value (.normal last) u) :
    Interpreter.stmt bound (run bound) stmt s = leaving (run bound) body t := by
  cases h with
  | block => exact inner_eq_leaving hnormal
  | yes htest htrue =>
      simp only [Interpreter.stmt, Run.bind_apply, htest, htrue, if_true]
      exact inner_eq_leaving hnormal
  | no htest hfalse =>
      simp only [Interpreter.stmt, Run.bind_apply, htest, hfalse, Bool.false_eq_true, if_false]
      exact inner_eq_leaving hnormal
  | @loop span test body s t u value k hpasses hrounds htest htrue =>
      obtain ⟨more, hmore⟩ := Nat.exists_eq_add_of_lt hrounds
      rw [stmt_loop, hpasses.iterate (hmore.trans (Nat.add_assoc ..)), Run.iterate,
        loopRound_apply body htest htrue]
      cases hrun : leaving (run bound) body u.entered with
      | value flow w =>
          cases flow with
          | normal last => exact absurd hrun (hnormal last w)
          | ret v => rfl
      | error e w => rfl
      | cutOff => rfl

/-- What a round does that ends with a value. -/
theorem loopRound_eq_value {again : Again} {test : Expr} {body : Block}
    {step : Run.Step Unit Flow} (hrun : loopRound again test body () s = .value step u) :
    (step = .done (.normal .nil)) ∨
      ∃ value t flow, again (.expr test) s = .value value t ∧ value.isTruthy = true ∧
        leaving again body t.entered = .value flow u ∧
        match flow with
        | .ret v => step = .done (.ret v)
        | .normal _ => step = .next () := by
  obtain ⟨value, t, htest, hrest⟩ := Run.bind_eq_value.1 hrun
  cases htruthy : value.isTruthy with
  | false =>
      rw [htruthy] at hrest
      cases hrest
      exact .inl rfl
  | true =>
      rw [htruthy] at hrest
      obtain ⟨flow, w, hbody, hflow⟩ := Run.bind_eq_value.1 hrest
      rw [scopedBlock_apply] at hbody
      cases flow with
      | ret v =>
          cases hflow
          exact .inr ⟨value, t, .ret v, htest, htruthy, hbody, rfl⟩
      | normal last =>
          cases hflow
          exact .inr ⟨value, t, .normal last, htest, htruthy, hbody, rfl⟩

/-- A loop that ends at a `return` has come to run its block. -/
theorem enters_of_iterate {test : Expr} {body : Block} {v : Value}
    (hrun : Run.iterate rounds (loopRound (run bound) test body) () s = .value (.ret v) u) :
    ∃ k value t t', Passes bound test body k s t ∧ k < rounds ∧
      run bound (.expr test) t = .value value t' ∧ value.isTruthy = true ∧
      leaving (run bound) body t'.entered = .value (.ret v) u := by
  induction rounds generalizing s with
  | zero => cases hrun
  | succ rounds ih =>
      rw [Run.iterate] at hrun
      cases hround : loopRound (run bound) test body () s with
      | error e w =>
          rw [hround] at hrun
          cases hrun
      | cutOff =>
          rw [hround] at hrun
          cases hrun
      | value step w =>
          rw [hround] at hrun
          -- the round ends the loop, comes to the `return`, or is one to go through
          obtain rfl | ⟨value, t, flow, htest, htrue, hbody, hstep⟩ := loopRound_eq_value hround
          · cases hrun
          · cases flow with
            | ret v' =>
                cases hstep
                cases hrun
                exact ⟨0, value, s, t, .none, Nat.succ_pos _, htest, htrue, hbody⟩
            | normal last =>
                cases hstep
                obtain ⟨k, value', t', t'', hpasses, hk, hrest⟩ := ih hrun
                exact ⟨k + 1, value', t', t'', .round htest htrue hbody hpasses,
                  Nat.succ_lt_succ hk, hrest⟩

theorem inner_ret {again : Again} {body : Block} {v : Value}
    (hrun : inner again body s = .value (.ret v) u) :
    leaving again body s.entered = .value (.ret v) u := by
  obtain ⟨flow, t, hbody, hflow⟩ := Run.bind_eq_value.1 hrun
  cases flow <;> cases hflow
  exact hbody

/-- A statement that ends at a `return` is one, or comes to run a block that does. -/
theorem stmt_ret {stmt : Stmt} {v : Value}
    (hrun : Interpreter.stmt bound (run bound) stmt s = .value (.ret v) u) :
    (∃ place e, stmt = .ret place e) ∨
      ∃ body t, Enters bound stmt body s t ∧ leaving (run bound) body t = .value (.ret v) u := by
  cases stmt with
  | ret place e => exact .inl ⟨place, e, rfl⟩
  | block body => exact .inr ⟨body, s.entered, .block, inner_ret hrun⟩
  | loop span test body =>
      obtain ⟨k, value, t, t', hpasses, hk, htest, htrue, hbody⟩ := enters_of_iterate hrun
      exact .inr ⟨body, t'.entered, .loop hpasses hk htest htrue, hbody⟩
  | cond span test yes no =>
      obtain ⟨value, t, htest, hrest⟩ := Run.bind_eq_value.1 hrun
      cases htruthy : value.isTruthy with
      | true =>
          rw [htruthy, if_pos rfl] at hrest
          exact .inr ⟨yes, t.entered, .yes htest htruthy, inner_ret hrest⟩
      | false =>
          rw [htruthy, if_neg Bool.false_ne_true] at hrest
          cases no with
          | none => cases hrest
          | some body => exact .inr ⟨body, t.entered, .no htest htruthy, inner_ret hrest⟩
  | define span name value =>
      obtain ⟨value, t, _, hrest⟩ := Run.bind_eq_value.1 hrun
      cases hrest
  | assignLexical span ref value =>
      obtain ⟨value, t, _, hrest⟩ := Run.bind_eq_value.1 hrun
      obtain ⟨_, t, _, hrest⟩ := Run.bind_eq_value.1 hrest
      cases hrest
  | assignGlobal span cell value =>
      obtain ⟨value, t, _, hrest⟩ := Run.bind_eq_value.1 hrun
      cases hrest
  | expr e =>
      obtain ⟨value, t, _, hrest⟩ := Run.bind_eq_value.1 hrun
      cases hrest

/-! ## Blocks -/

/-- What comes before a statement that does not end normally ends normally. -/
theorem stmts_apply {again : Again} {before rest : List Stmt} {stmt : Stmt} {first last : Value}
    (hbefore : stmts rounds again first before s = .value (.normal last) t)
    (hnormal : ∀ last u, Interpreter.stmt rounds again stmt t ≠ .value (.normal last) u) :
    stmts rounds again first (before ++ stmt :: rest) s = Interpreter.stmt rounds again stmt t := by
  induction before generalizing first s with
  | nil =>
      cases hbefore
      rw [List.nil_append, stmts, Run.bind_apply]
      cases hrun : Interpreter.stmt rounds again stmt t with
      | value flow u =>
          cases flow with
          | ret v => rfl
          | normal last => exact absurd hrun (hnormal last u)
      | error e u => rfl
      | cutOff => rfl
  | cons earlier before ih =>
      obtain ⟨flow, u, hearlier, hrest⟩ := Run.bind_eq_value.1 hbefore
      rw [List.cons_append, stmts, Run.bind_apply, hearlier]
      cases flow with
      | ret v => cases hrest
      | normal value => exact ih hrest

/-- Statements that end at a `return` do so in one of them, and what comes before it ends
normally. -/
theorem stmts_ret {again : Again} {all : List Stmt} {first v : Value}
    (hrun : stmts rounds again first all s = .value (.ret v) u) :
    ∃ before stmt rest last t, all = before ++ stmt :: rest ∧
      stmts rounds again first before s = .value (.normal last) t ∧
      Interpreter.stmt rounds again stmt t = .value (.ret v) u := by
  induction all generalizing first s with
  | nil => cases hrun
  | cons earlier all ih =>
      obtain ⟨flow, t, hearlier, hrest⟩ := Run.bind_eq_value.1 hrun
      cases flow with
      | ret v' =>
          cases hrest
          exact ⟨[], earlier, all, first, s, rfl, rfl, hearlier⟩
      | normal value =>
          obtain ⟨before, stmt, rest, last, t', rfl, hbefore, hstmt⟩ := ih hrest
          refine ⟨earlier :: before, stmt, rest, last, t', rfl, ?_, hstmt⟩
          rw [stmts, Run.bind_apply, hearlier]
          exact hbefore

/-- How blocks end that are left with a value, if some error was the first of their hooks. -/
def returnResult (v : Value) (failed : Option EvalError) : Except EvalError Flow :=
  match failed with
  | none => .ok (.ret v)
  | some e => .error e

/-- Once a hook has failed, those of the blocks around it make no difference to the result. -/
theorem exitResult_returnResult (v : Value) (failed : Option EvalError)
    (ends : List (Except EvalError Value)) : exitResult (returnResult v failed) ends
      = returnResult v (failed.or (ends.findSome? failure?)) := by
  cases failed with
  | none => cases hends : ends.findSome? failure? <;> simp [exitResult, returnResult, hends]
  | some e => rfl

/-- Blocks are left with a value, the innermost first: as each exits, the hooks that wait for it
run, each to its end, and then its scope is left.  The first error of all hooks is kept. -/
inductive Leaves : List (Nat × Span) → State → Option EvalError → State → Prop where
  | none {s : State} : Leaves [] s none s
  | block {bound : Nat} {span : Span} {path : List (Nat × Span)} {s t u : State}
      {ends : List (Except EvalError Value)} {failed : Option EvalError}
      (hexits : Invoked bound span s.closed (s.exits.headD []) ends t)
      (hrest : Leaves path t.exited failed u) :
      Leaves ((bound, span) :: path) s ((ends.findSome? failure?).or failed) u

theorem leaves_append_iff {path more : List (Nat × Span)} {failed : Option EvalError} :
    Leaves (path ++ more) s failed u ↔
      ∃ failed₁ t failed₂, Leaves path s failed₁ t ∧ Leaves more t failed₂ u ∧
        failed = failed₁.or failed₂ := by
  induction path generalizing s failed with
  | nil =>
      constructor
      · exact fun h => ⟨none, s, failed, .none, h, rfl⟩
      · rintro ⟨_, _, failed₂, h, hmore, rfl⟩
        cases h
        exact hmore
  | cons first path ih =>
      constructor
      · intro h
        cases h with
        | block hexits hrest =>
            obtain ⟨failed₁, t, failed₂, hpath, hmore, rfl⟩ := ih.1 hrest
            exact ⟨_, t, failed₂, .block hexits hpath, hmore, Option.or_assoc.symm⟩
      · rintro ⟨_, t, failed₂, h, hmore, rfl⟩
        cases h with
        | block hexits hrest =>
            rw [Option.or_assoc]
            exact .block hexits (ih.2 ⟨_, t, failed₂, hrest, hmore, rfl⟩)

theorem leaves_one_iff {span : Span} {failed : Option EvalError} :
    Leaves [(bound, span)] s failed u ↔
      ∃ ends t, Invoked bound span s.closed (s.exits.headD []) ends t ∧
        failed = ends.findSome? failure? ∧ u = t.exited := by
  constructor
  · intro h
    cases h with
    | block hexits hrest =>
        cases hrest
        exact ⟨_, _, hexits, Option.or_none, rfl⟩
  · rintro ⟨ends, t, hexits, rfl, rfl⟩
    rw [← Option.or_none (o := ends.findSome? failure?)]
    exact .block hexits .none

/-- A block exits when its statements have ended. -/
theorem leaving_ends_iff {b : Block} {final : Except EvalError Flow} :
    (leaving (run (bound + 1)) b).run? s = some (final, t) ↔
      ∃ result u ends w, (stmts bound (run bound) .nil b.stmts).run? s.opened = some (result, u) ∧
        Invoked bound b.span u.closed (u.exits.headD []) ends w ∧ final = exitResult result ends ∧
        t = w.exited := by
  have hleaving : (leaving (run (bound + 1)) b).run? s
      = ((block bound (run bound) b).run? s).map fun p => (p.1, p.2.exited) := by
    rw [leaving, run_succ, perform]
    unfold Run.run? Run.ensuring
    cases block bound (run bound) b s <;> rfl
  rw [hleaving, Option.map_eq_some_iff]
  constructor
  · rintro ⟨⟨r, w⟩, hblock, hend⟩
    cases hend
    obtain ⟨result, u, hstmts, hexits⟩ := withExits_iff.1 hblock
    obtain ⟨ends, hinvoked, hfinal⟩ := runExits_iff.1 hexits
    exact ⟨result, u, ends, w, hstmts, hinvoked, hfinal, rfl⟩
  · rintro ⟨result, u, ends, w, hstmts, hinvoked, rfl, rfl⟩
    exact ⟨(_, w), withExits_iff.2 ⟨result, u, hstmts, runExits_iff.2 ⟨ends, hinvoked, rfl⟩⟩, rfl⟩

/-- A block whose statements come to a `return`, or to an error on the way out from one, is left. -/
theorem leaving_leaves_iff {b : Block} {v : Value} {failed : Option EvalError}
    {final : Except EvalError Flow} (hstmts : (stmts bound (run bound) .nil b.stmts).run? s.opened
      = some (returnResult v failed, u)) :
    (leaving (run (bound + 1)) b).run? s = some (final, t) ↔
      ∃ failed', Leaves [(bound, b.span)] u failed' t ∧
        final = returnResult v (failed.or failed') := by
  rw [leaving_ends_iff]
  constructor
  · rintro ⟨result, u', ends, w, hrun, hinvoked, rfl, rfl⟩
    cases hstmts.symm.trans hrun
    exact ⟨_, leaves_one_iff.2 ⟨ends, w, hinvoked, rfl, rfl⟩, exitResult_returnResult v failed ends⟩
  · rintro ⟨_, hleaves, rfl⟩
    obtain ⟨ends, w, hinvoked, rfl, rfl⟩ := leaves_one_iff.1 hleaves
    exact ⟨_, u, ends, w, hstmts, hinvoked, (exitResult_returnResult v failed ends).symm, rfl⟩

/-- However a run ends that has come to a `return`, all blocks around the statement were left. -/
theorem Reaches.leaving_iff {b : Block} {v : Value} {path : List (Nat × Span)}
    (h : Reaches bound b s v path u) {final : Except EvalError Flow} :
    (leaving (run bound) b).run? s = some (final, t) ↔
      ∃ failed, Leaves path u failed t ∧ final = returnResult v failed := by
  induction h generalizing final t with
  | @own bound span place before rest e s t' u last v hbefore hreturn =>
      have hstmts : (stmts bound (run bound) .nil (before ++ .ret place e :: rest)).run? s.opened
          = some (returnResult v none, u) := by
        refine Run.run?_eq_ok.2 ((stmts_apply hbefore fun last w hrun => ?_).trans hreturn)
        cases hreturn.symm.trans hrun
      exact leaving_leaves_iff (b := .mk span (before ++ .ret place e :: rest)) hstmts
  | @inner bound span before rest stmt body s t' t'' u last v path hbefore henters hinner ih =>
      -- the inner block does not end normally, so what stands behind its statement is not run
      have hnormal : ∀ last w, leaving (run bound) body t'' ≠ .value (.normal last) w := by
        intro last w hrun
        obtain ⟨failed, _, hfinal⟩ := ih.1 (Run.run?_eq_ok.2 hrun)
        cases failed <;> cases hfinal
      have hstmt := henters.stmt_apply hnormal
      have hstmts : stmts bound (run bound) .nil (before ++ stmt :: rest) s.opened
          = leaving (run bound) body t'' :=
        (stmts_apply hbefore fun last w hrun => hnormal last w (hstmt.symm.trans hrun)).trans hstmt
      have hresult : (stmts bound (run bound) .nil (before ++ stmt :: rest)).run? s.opened
          = (leaving (run bound) body).run? t'' := by rw [Run.run?, Run.run?, hstmts]
      let b : Block := .mk span (before ++ stmt :: rest)
      constructor
      · intro h
        obtain ⟨result, w, -, -, hended, -⟩ := (leaving_ends_iff (b := b)).1 h
        obtain ⟨failed, hpath, rfl⟩ := ih.1 (hresult.symm.trans hended)
        obtain ⟨failed', hlast, rfl⟩ := (leaving_leaves_iff (b := b) hended).1 h
        exact ⟨_, leaves_append_iff.2 ⟨failed, w, failed', hpath, hlast, rfl⟩, rfl⟩
      · rintro ⟨_, hleaves, rfl⟩
        obtain ⟨failed, w, failed', hpath, hlast, rfl⟩ := leaves_append_iff.1 hleaves
        have hended := hresult.trans (ih.2 ⟨failed, hpath, rfl⟩)
        exact (leaving_leaves_iff (b := b) hended).2 ⟨failed', hlast, rfl⟩

/-- A block that ends at a `return` has come to one. -/
theorem reaches_of_ret {b : Block} {v : Value} (hrun : run bound (.block b) s = .value (.ret v) t) :
    ∃ path u, Reaches bound b s v path u := by
  induction bound generalizing b s t with
  | zero => cases hrun
  | succ bound ih =>
      obtain ⟨span, all⟩ := b
      have hleaving : (leaving (run (bound + 1)) (.mk span all)).run? s
          = some (.ok (.ret v), t.exited) :=
        Run.run?_eq_ok.2 (leaving_eq_value.2 ⟨t, hrun, rfl⟩)
      obtain ⟨result, u, ends, w, hended, -, hfinal, -⟩ := leaving_ends_iff.1 hleaving
      -- no hook has failed, so the `return` is what the statements ended at
      rw [exitResult_eq_ok hfinal.symm] at hended
      obtain ⟨before, stmt, rest, last, t', hall, hbefore, hstmt⟩ :=
        stmts_ret (Run.run?_eq_ok.1 hended)
      cases (show all = _ from hall)
      obtain ⟨place, e, rfl⟩ | ⟨body, t'', henters, hbody⟩ := stmt_ret hstmt
      · exact ⟨_, u, .own hbefore hstmt⟩
      · obtain ⟨x, hinner, -⟩ := leaving_eq_value.1 hbody
        obtain ⟨path, u', hpath⟩ := ih hinner
        exact ⟨_, u', .inner hbefore henters hpath⟩

/-! ## Calls -/

/-- The innermost scope with parameters bound to arguments. -/
def withParams (env : Environment) : List String → List Value → Environment
  | param :: params, arg :: args => withParams (env.define param arg) params args
  | _, _ => env

theorem bindParams_apply (params : List String) (args : List Value) (s : State) :
    bindParams params args s = .value () { s with env := withParams s.env params args } := by
  induction params generalizing args s with
  | nil => rfl
  | cons param params ih =>
      cases args with
      | nil => rfl
      | cons arg args => exact ih args { s with env := s.env.define param arg }

/-- The state in which the body of a sub runs that was called from `s`. -/
def State.inCall (s : State) (sub : Sub) (args : List Value) (calls : CallStack) : State :=
  { s with
    currentUnit := sub.unit.or s.currentUnit
    calls
    env := (withParams (s.env.pushDetached sub.captured) sub.function.params args).push }

/-- The state behind a call from `s` whose body has ended in `t`. -/
def State.behindCall (s : State) (sub : Sub) (t : State) : State :=
  { t with
    currentUnit := if sub.unit.isSome then s.currentUnit else t.currentUnit
    calls := t.calls.pop
    env := t.env.pop }

/-- The body of a sub runs in a frame.  When it ends, its scopes and the frame are left. -/
theorem inFrame_apply {again : Again} {params : List String} {args : List Value} {body : Block}
    {frame : Frame} {parent : Option ScopeId} {calls : CallStack}
    {outcome : Run.Outcome State EvalError Flow} (hpush : s.calls.push frame = .ok calls)
    (hbody : leaving again body { s with
      calls, env := (withParams (s.env.pushDetached parent) params args).push } = outcome) :
    inFrame frame parent (do bindParams params args; scopedBlock again body) s =
      match outcome with
      | .value flow t => .value flow { t with calls := t.calls.pop, env := t.env.pop }
      | .error e t => .error (t.calls.attachBacktrace e)
          { t with calls := t.calls.pop, env := t.env.pop }
      | .cutOff => .cutOff := by
  have hpushed : pushFrame frame s = .value () { s with calls } := by
    simp only [pushFrame, hpush]
  simp only [inFrame, withFrame, Run.bind_apply, hpushed, Run.ensuring, traced, Run.mapError,
    inDetachedScope, Run.modify_apply, bindParams_apply, scopedBlock_apply, State.entered, hbody]
  cases outcome <;> rfl

/-- A call takes the value of a `return`. -/
theorem callSub_apply {sub : Sub} {args : List Value} {frame : Frame} {calls : CallStack}
    (hargs : sub.function.params.length = args.length) (hpush : s.calls.push frame = .ok calls)
    (again : Again) : callSub again sub args frame s =
      match leaving again sub.function.body (s.inCall sub args calls) with
      | .value (.ret v) t => .value v (s.behindCall sub t)
      | .value (.normal _) t => .value .nil (s.behindCall sub t)
      | .error e t => .error (t.calls.attachBacktrace e) (s.behindCall sub t)
      | .cutOff => .cutOff := by
  obtain ⟨id, name, function, captured, unit⟩ := sub
  have hlength : (function.params.length != args.length) = false := by simpa using hargs
  simp only [callSub, hlength, Bool.false_eq_true, if_false]
  cases unit with
  | none =>
      let sub : Sub := ⟨id, name, function, captured, none⟩
      cases hbody : leaving again function.body (s.inCall sub args calls) with
      | value flow t =>
          rw [Run.bind_apply, inCodeOf, inFrame_apply hpush hbody]
          cases flow <;> rfl
      | error e t =>
          rw [Run.bind_apply, inCodeOf, inFrame_apply hpush hbody]
          rfl
      | cutOff => rw [Run.bind_apply, inCodeOf, inFrame_apply hpush hbody]
  | some unit =>
      let sub : Sub := ⟨id, name, function, captured, some unit⟩
      let inside : State := { s with currentUnit := some unit }
      have hinside : inside.calls.push frame = .ok calls := hpush
      simp only [Run.bind_apply, inCodeOf, Run.get_apply, Run.modify_apply, Run.ensuring]
      cases hbody : leaving again function.body (s.inCall sub args calls) with
      | value flow t =>
          rw [inFrame_apply hinside hbody]
          cases flow <;> rfl
      | error e t =>
          rw [inFrame_apply hinside hbody]
          rfl
      | cutOff =>
          rw [inFrame_apply hinside hbody]
          rfl

/-- How a call ends whose body was left with a value, if some error was the first of the hooks. -/
def callResult (v : Value) (failed : Option EvalError) (t : State) : Except EvalError Value :=
  match failed with
  | none => .ok v
  | some e => .error (t.calls.attachBacktrace e)

/-- A call gives the value of the `return` that its body comes to, unless a hook fails. -/
theorem Reaches.callSub_iff {sub : Sub} {args : List Value} {frame : Frame} {calls : CallStack}
    (hargs : sub.function.params.length = args.length) (hpush : s.calls.push frame = .ok calls)
    {v : Value} {path : List (Nat × Span)}
    (h : Reaches bound sub.function.body (s.inCall sub args calls) v path u)
    {final : Except EvalError Value} :
    (callSub (run bound) sub args frame).run? s = some (final, t) ↔
      ∃ failed w, Leaves path u failed w ∧ t = s.behindCall sub w ∧
        final = callResult v failed w := by
  have hcall := callSub_apply hargs hpush (run bound)
  constructor
  · intro hrun
    rw [Run.run?, hcall] at hrun
    cases hend : leaving (run bound) sub.function.body (s.inCall sub args calls) with
    | cutOff =>
        rw [hend] at hrun
        cases hrun
    | error e w =>
        obtain ⟨failed, hleaves, hfinal⟩ := h.leaving_iff.1 (Run.run?_eq_error.2 hend)
        rw [hend] at hrun
        cases failed with
        | none => cases hfinal
        | some e =>
            cases hfinal
            cases hrun
            exact ⟨some e, w, hleaves, rfl, rfl⟩
    | value flow w =>
        obtain ⟨failed, hleaves, hfinal⟩ := h.leaving_iff.1 (Run.run?_eq_ok.2 hend)
        rw [hend] at hrun
        cases failed with
        | some e => cases hfinal
        | none =>
            cases hfinal
            cases hrun
            exact ⟨none, w, hleaves, rfl, rfl⟩
  · rintro ⟨failed, w, hleaves, rfl, rfl⟩
    have hend := h.leaving_iff.2 ⟨failed, hleaves, rfl⟩
    cases failed with
    | none => exact Run.run?_eq_ok.2 (hcall.trans (by rw [Run.run?_eq_ok.1 hend]))
    | some e => exact Run.run?_eq_error.2 (hcall.trans (by rw [Run.run?_eq_error.1 hend]))

/-! ## All code -/

/-- However a block is run, it does not end at a `return`. -/
def NeverReturns (b : Block) : Prop :=
  ∀ bound s v t, run bound (.block b) s ≠ .value (.ret v) t

theorem neverReturns_of_not_returns {b : Block} (h : ¬b.Returns) : NeverReturns b := by
  intro bound s v t hrun
  obtain ⟨path, u, hreaches⟩ := reaches_of_ret hrun
  exact h hreaches.returns

/-- No unit that was constructed ends at a `return`. -/
theorem neverReturns_of_construct {name source : String} {origin : UnitOrigin}
    {path : Option String} {unit : CompiledUnit}
    (hrun : construct rounds (run bound) name origin path source s = .value unit t) :
    NeverReturns unit.body := by
  rw [construct_apply] at hrun
  split at hrun
  · rename_i body p hparse
    cases hrun
    exact neverReturns_of_not_returns
      (Parser.runUnit_not_returns (host_splices rounds bound) hparse)
  · cases hrun
  · cases hrun

open Classical in
/-- A host that gives up at a `begin` block that may end at a `return`. -/
noncomputable def strictHost (rounds bound : Nat) : Host State :=
  { host rounds (run bound) with
    runBegin := fun left body span =>
      if NeverReturns body then (host rounds (run bound)).runBegin left body span
      else fun _ => .cutOff }

theorem strictHost_agreeOn (rounds bound : Nat) :
    (host rounds (run bound)).AgreeOn (strictHost rounds bound) NeverReturns :=
  ⟨rfl, rfl, fun _ _ _ hbody => if_pos hbody⟩

/-! ## Given calls -/

/-- Runs a block to a `return` that is its last statement, in the scope that was entered for it. -/
def toLastReturn (bound : Nat) (b : Block) (s : State) : Option (Value × State) :=
  match b.stmts.reverse with
  | .ret place e :: before =>
    match stmts bound (run bound) .nil before.reverse s.opened with
    | .value (.normal _) t =>
      match stmt bound (run bound) (.ret place e) t with
      | .value (.ret v) u => some (v, u)
      | _ => none
    | _ => none
  | _ => none

theorem reaches_of_toLastReturn {b : Block} {v : Value}
    (h : toLastReturn bound b s = some (v, u)) :
    Reaches (bound + 1) b s v [(bound, b.span)] u := by
  obtain ⟨span, all⟩ := b
  unfold toLastReturn at h
  split at h
  · rename_i place e before hreverse
    have hall : all = before.reverse ++ .ret place e :: [] := by
      simpa using congrArg List.reverse (show all.reverse = _ from hreverse)
    subst hall
    split at h
    · rename_i last t hbefore
      split at h
      · rename_i v' u' hreturn
        cases h
        exact .own hbefore hreturn
      · cases h
    · cases h
  · cases h

/-- The sub `f` is called without arguments, and its body comes to a `return`. -/
structure Returning (s : State) (sub : Sub) (calls : CallStack) (v : Value)
    (path : List (Nat × Span)) (u : State) : Prop where
  declared : s.globals.lookup? "f" = some (.sub sub)
  params : sub.function.params.length = [].length (α := Value)
  pushed : s.calls.push ⟨sub.name, .sub, none⟩ = .ok calls
  reaches : Reaches 30 sub.function.body (s.inCall sub [] calls) v path u

/-- Whether it is, and the end of the call passes a test. -/
def returnsWith (s : State) (test : Except EvalError Value → State → Bool) : Bool :=
  match s.globals.lookup? "f" with
  | some (.sub sub) =>
    match s.calls.push ⟨sub.name, .sub, none⟩ with
    | .ok calls =>
      sub.function.params.isEmpty &&
        (toLastReturn 29 sub.function.body (s.inCall sub [] calls)).isSome &&
        ((callSub (run 30) sub [] ⟨sub.name, .sub, none⟩).run? s).any fun p => test p.1 p.2
    | _ => false
  | _ => false

theorem exists_returning {test : Except EvalError Value → State → Bool}
    (h : returnsWith s test = true) : ∃ sub calls v path u final t,
      Returning s sub calls v path u ∧
      (callSub (run 30) sub [] ⟨sub.name, .sub, none⟩).run? s = some (final, t) ∧
      test final t = true := by
  unfold returnsWith at h
  split at h
  · rename_i sub hdeclared
    split at h
    · rename_i calls hpush
      obtain ⟨h, hcall⟩ := Bool.and_eq_true_iff.1 h
      obtain ⟨hparams, hreturn⟩ := Bool.and_eq_true_iff.1 h
      obtain ⟨⟨v, u⟩, hreturn⟩ := Option.isSome_iff_exists.1 hreturn
      obtain ⟨⟨final, t⟩, hcall, htest⟩ := (Option.any_eq_true ..).1 hcall
      exact ⟨sub, calls, v, _, u, final, t, ⟨hdeclared, by simpa using hparams, hpush,
        reaches_of_toLastReturn hreturn⟩, hcall, htest⟩
    · cases h
  · cases h

/-- Whether a call gave an integer. -/
def givesInt (n : Int64) : Except EvalError Value → Bool
  | .ok (.int m) => m == n
  | _ => false

theorem eq_of_givesInt {n : Int64} {final : Except EvalError Value}
    (h : givesInt n final = true) : final = .ok (.int n) := by
  unfold givesInt at h
  split at h
  · rw [eq_of_beq h]
  · cases h

/-- Of the `return`s that a parse consumes, those are rejected that have no sub or closure around
them.  So no unit ends at a `return`, and neither does a `begin` block: whatever a host makes of
blocks that may, parses are the same.

A block that ends at a `return` has come to one that is its own.  Then the blocks around the
statement are left, the innermost first, and with each its hooks run.  The call whose body it is
gives the value, or the first error of these hooks. -/
theorem return_leaves_function :
    (∀ {σ : Type} {host : Host σ}, host.Splices → ∀ {bound source h result p},
      (Parser.runUnit host bound).run? (.start source h) = some (result, p) →
        Parser.Judged (fun keyword => ∃ e, result = .error e ∧ Parser.Rejects e keyword)
          p.buffer.consumed) ∧
    (∀ {rounds bound name origin path source s unit t},
      construct rounds (run bound) name origin path source s = .value unit t →
        NeverReturns unit.body) ∧
    (∀ {σ : Type} {host host' : Host σ}, host.Splices → host.AgreeOn host' NeverReturns →
      ∀ bound source (h : σ), Parser.runUnit host' bound (.start source h)
        = Parser.runUnit host bound (.start source h)) ∧
    (∀ {bound b s v t}, run bound (.block b) s = .value (.ret v) t →
      ∃ path u, Reaches bound b s v path u) ∧
    (∀ {bound b s v path u}, Reaches bound b s v path u → b.Returns ∧
      ∀ {final t}, (leaving (run bound) b).run? s = some (final, t) ↔
        ∃ failed, Leaves path u failed t ∧ final = returnResult v failed) ∧
    ∀ {bound sub args frame calls s v path u}, sub.function.params.length = args.length →
      s.calls.push frame = .ok calls →
      Reaches bound sub.function.body (s.inCall sub args calls) v path u →
      ∀ {final t}, (callSub (run bound) sub args frame).run? s = some (final, t) ↔
        ∃ failed w, Leaves path u failed w ∧ t = s.behindCall sub w ∧
          final = callResult v failed w := by
  refine ⟨fun hsplices => Parser.runUnit_judges hsplices, neverReturns_of_construct,
    fun hsplices hhosts => ?_, reaches_of_ret,
    fun hreaches => ⟨hreaches.returns, hreaches.leaving_iff⟩,
    fun hargs hpush hreaches => hreaches.callSub_iff hargs hpush⟩
  exact Parser.runUnit_congr hsplices (hhosts.mono fun _ => neverReturns_of_not_returns)

/-- A hook waits for the body of `f` to exit, and prints 2. -/
theorem return_leaves_function_through_hook :
    (∃ unit s, construct 30 (run 30) "main" .main none
        "sub f() { begin { after_runtime(fn() { print(2); }); } return 1; }"
        (Session.start .default) = .value unit s ∧ NeverReturns unit.body ∧
      ∃ sub calls path u t w, Returning s sub calls (.int 1) path u ∧
        sub.function.body.Returns ∧ Leaves path u none w ∧
        (callSub (run 30) sub [] ⟨sub.name, .sub, none⟩).run? s = some (.ok (.int 1), t) ∧
        t = s.behindCall sub w ∧ t.output.text = "2\n") ∧
    ∃ e p keyword earlier,
      Parser.runUnit (strictHost 30 30) 30 (.start "sub f() { return 1; begin { return 2; } }"
        ((Session.start .default).enterUnit "main" .main none "")) = .error e p ∧
      p.buffer.consumed = keyword :: earlier ∧ Parser.Rejects e keyword := by
  constructor
  · have htest : (construct 30 (run 30) "main" .main none
        "sub f() { begin { after_runtime(fn() { print(2); }); } return 1; }"
        (Session.start .default)).valueWith (fun _ s => returnsWith s fun final t =>
          givesInt 1 final && t.output.text = "2\n") = true := by
      decide +kernel
    obtain ⟨unit, s, hconstruct, htest⟩ := Run.Outcome.exists_value htest
    obtain ⟨sub, calls, v, path, u, final, t, hreturning, hcall, htest⟩ := exists_returning htest
    obtain ⟨-, hnever, -, -, hleaves, hcalls⟩ := return_leaves_function
    obtain ⟨failed, w, hpath, ht, hfinal⟩ :=
      (hcalls hreturning.params hreturning.pushed hreturning.reaches).1 hcall
    cases failed with
    | some e =>
        cases hfinal
        cases htest
    | none =>
        cases hfinal
        obtain ⟨hgives, hprinted⟩ := Bool.and_eq_true_iff.1 htest
        cases eq_of_givesInt hgives
        exact ⟨unit, s, hconstruct, hnever hconstruct, sub, calls, path, u, t, w, hreturning,
          (hleaves hreturning.reaches).1, hpath, hcall, ht, of_decide_eq_true hprinted⟩
  · have htest : (Parser.runUnit (host 30 (run 30)) 30
        (.start "sub f() { return 1; begin { return 2; } }"
          ((Session.start .default).enterUnit "main" .main none ""))).errorWith (fun _ p =>
            match p.buffer.consumed with
            | keyword :: earlier => keyword.kind = .kwReturn &&
                !Parser.ScopeKind.callable (Parser.Standing.behind earlier).inside
            | [] => false) = true := by
      decide +kernel
    obtain ⟨e, p, hrun, htest⟩ := Run.Outcome.exists_error htest
    cases hconsumed : p.buffer.consumed with
    | nil =>
        rw [hconsumed] at htest
        cases htest
    | cons keyword earlier =>
        rw [hconsumed] at htest
        obtain ⟨hkind, hbarred⟩ := Bool.and_eq_true_iff.1 htest
        have hjudged := return_leaves_function.1 (host_splices 30 30) (Run.run?_eq_error.2 hrun)
        obtain ⟨-, _, ⟨⟩, hrejects⟩ := (hjudged [] keyword earlier hconsumed
          (of_decide_eq_true hkind)).1 (by simpa using hbarred)
        have hsame := return_leaves_function.2.2.1 (host_splices 30 30)
          (strictHost_agreeOn 30 30) 30 "sub f() { return 1; begin { return 2; } }"
          ((Session.start .default).enterUnit "main" .main none "")
        exact ⟨e, p, keyword, earlier, hsame.trans hrun, hconsumed, hrejects⟩

/-- The hook of the body fails, and the value of the `return` that its body came to is lost. -/
theorem returned_value_lost : ∃ unit s sub calls v path u e t,
    construct 30 (run 30) "main" .main none "sub f() { begin { after_runtime(die); } return 1; }"
      (Session.start .default) = .value unit s ∧
    Returning s sub calls v path u ∧
    (callSub (run 30) sub [] ⟨sub.name, .sub, none⟩).run? s = some (.error e, t) := by
  have htest : (construct 30 (run 30) "main" .main none
      "sub f() { begin { after_runtime(die); } return 1; }"
      (Session.start .default)).valueWith (fun _ s => returnsWith s fun final _ =>
        match final with
        | .error _ => true
        | .ok _ => false) = true := by
    decide +kernel
  obtain ⟨unit, s, hconstruct, htest⟩ := Run.Outcome.exists_value htest
  obtain ⟨sub, calls, v, path, u, final, t, hreturning, hcall, htest⟩ := exists_returning htest
  cases final with
  | ok w => cases htest
  | error e => exact ⟨unit, s, sub, calls, v, path, u, e, t, hconstruct, hreturning, hcall⟩

end Interpreter

end TwoPhase
