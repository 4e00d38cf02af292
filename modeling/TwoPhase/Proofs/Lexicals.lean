import TwoPhase.Proofs.Course

/-!
# Lexical names at work

The parser resolves a name to a declaration by where it stands in the text.  Running code looks the
name up in the scopes that are there by then.  In every session both agree on which names there are:
a lexical name has a value wherever it is evaluated, and a variable wherever it is assigned to
(`lexicals_defined`).

They do not agree on the variable always.  A closure keeps the scopes that it was made in, and these
may introduce further variables before the closure is called, which it then sees
(`later_variable_seen`).  Nothing else comes between a name and its declaration (`lexicals_scoped`).
-/

namespace TwoPhase

open Interpreter
open Environment (Declared Belated)

variable {s t : State} {bound : Nat} {span : Span} {ref : LexicalRef} {value : Expr}
  {statement : Stmt}

/-! ## Statements at work -/

/-- A block at work comes to a statement of its own. -/
inductive Reached (bound : Nat) (statement : Stmt) (t : State) : Prop where
  | mk {s : State} {block : Block} {before after : List Stmt} {last : Value}
      (h : AtWork (bound + 1) (.block block) s)
      (hstmts : block.stmts = before ++ statement :: after)
      (hbefore : stmts bound (run bound) .nil before { s with exits := [] :: s.exits }
        = .value (.normal last) t) : Reached bound statement t

/-- A statement that is reached is sound for the scopes that it is reached in. -/
theorem Reached.sound (h : Reached bound statement t) :
    ∃ floor text scopes, t.In floor text scopes ∧ statement.Sound text scopes := by
  obtain @⟨s, block, before, after, last, hwork, hstmts, hbefore⟩ := h
  obtain ⟨hs, text, kind, scopes, hworks, hblock⟩ := hwork.sound
  cases hblock with
  | @mk _ _ _ stmts _ _ hlead =>
      obtain rfl : stmts = before ++ statement :: after := hstmts
      obtain ⟨middle, hleft, hright⟩ := hlead.of_append
      cases hright with
      | cons hstatement _ =>
          have hopened : s.After s.env.heap.size { s with exits := [] :: s.exits } := .openExits hs
          have hin : State.In s.env.current.index text (.empty kind :: scopes)
              { s with exits := [] :: s.exits } :=
            ⟨hopened.sound, hworks.after hopened s.env.current_lt, rfl⟩
          obtain ⟨_, _, hreached⟩ :=
            (SoundParts.stmts (run_sound bound) hin hleft .nil).value hbefore
          exact ⟨_, text, middle, hreached last rfl, hstatement⟩

/-! ## What names find -/

/-- A variable that a lexical name may find: that of its declaration, or one that a captured scope
introduced behind all that the parser had seen declared there. -/
def LexicalRef.Meets (ref : LexicalRef) (steps : Nat) (v : Variable) : Prop :=
  Declared ref steps v ∨ Belated ref steps v ∧ ref.own ≤ steps

theorem Interpreter.State.Works.meets {text : List Char} {scopes : List Parser.LexicalScope}
    (h : s.Works text scopes) (href : Parser.lexical? ref.name scopes = some ref) :
    ∃ steps owner v, s.env.Finds ref.name s.env.current steps owner v ∧ ref.Meets steps v := by
  obtain ⟨steps, owner, v, hfinds, hcase⟩ := h.env.finds href
  exact ⟨steps, owner, v, hfinds, hcase.imp_right fun h => ⟨h.1, h.2 trivial⟩⟩

/-- A lexical name that is evaluated finds a variable, and gives its value. -/
theorem AtWork.lexical (h : AtWork bound (.expr (.lexical span ref)) s) :
    ∃ steps owner v, s.env.Finds ref.name s.env.current steps owner v ∧ ref.Meets steps v ∧
      ∀ rounds again, expr rounds again (.lexical span ref) s = .value v.value s := by
  obtain ⟨hs, text, scopes, hworks, hlexical⟩ := h.sound
  cases hlexical with
  | lexical _ href =>
      obtain ⟨steps, owner, v, hfinds, hmeets⟩ := hworks.meets href
      refine ⟨steps, owner, v, hfinds, hmeets, fun rounds again => ?_⟩
      simp only [expr, exprValue, located, Run.mapError, loadLexical_of_finds hfinds]

/-- A lexical name that is assigned to finds a variable, and gives it the value. -/
theorem Reached.assignLexical {v : Value} (h : Reached bound (.assignLexical span ref value) s)
    (hvalue : run bound (.expr value) s = .value v t) :
    ∃ steps owner var, t.env.Finds ref.name t.env.current steps owner var ∧ ref.Meets steps var ∧
      stmt bound (run bound) (.assignLexical span ref value) s =
        .value (.normal .nil) { t with env := t.env.assignIn owner ref.name v } := by
  obtain ⟨floor, text, scopes, hin, hstatement⟩ := h.sound
  cases hstatement with
  | assignLexical _ href hsound =>
      obtain ⟨hafter, -⟩ := (SoundParts.nestedExpr (run_sound bound) hin.at hsound).value hvalue
      obtain ⟨steps, owner, var, hfinds, hmeets⟩ := (hin.after hafter).works.meets href
      refine ⟨steps, owner, var, hfinds, hmeets, ?_⟩
      simp only [stmt, Run.bind_apply, hvalue, assignLexical_of_finds hfinds, Run.pure_apply]

/-! ## A unit at work -/

/-- A unit that evaluates a lexical name and assigns to it. -/
def rebinding : String := "let x = 1; x = x;"

/-- Whether a block is made of the statements of that unit. -/
def isRebinding : Block → Bool
  | .mk _ [.define _ _ (.int _ _), .assignLexical _ _ (.lexical _ _)] => true
  | _ => false

/-- Both names of that unit are at work when it is executed. -/
theorem rebinding_at_work : ∃ span ref span' ref' s,
    AtWork 1 (.expr (.lexical span' ref')) s ∧
    Reached 1 (.assignLexical span ref (.lexical span' ref')) s := by
  have htest : (Session.compile 20 rebinding none none (Session.start .default)).valueWith
      (fun unit t => (t.calls.push ⟨unit.name, .unit, none⟩).isOk && isRebinding unit.body)
        = true := by
    decide +kernel
  obtain ⟨unit, t, hrun, htest⟩ := Run.Outcome.exists_value htest
  obtain ⟨hpush, hbody⟩ := Bool.and_eq_true_iff.1 htest
  unfold isRebinding at hbody
  split at hbody
  on_goal 2 => cases hbody
  rename_i place span name span₁ n span₂ ref span₃ ref' hunit
  cases hcalls : t.calls.push ⟨unit.name, .unit, none⟩ with
  | error fault =>
      rw [hcalls] at hpush
      cases hpush
  | ok calls =>
  have hcourse : Course t [] [unit] := .compiled (.start .default) hrun
  have hblock := AtWork.unit hcourse List.mem_cons_self hcalls 2
  rw [hunit] at hblock
  -- the first statement runs no code, and leaves the state in which the second is reached
  have hint : ∀ u, run 1 (.expr (.int span₁ n)) u = .value (.int n) u := fun u => by
    simp only [run_succ, perform, expr, exprValue, located, Run.mapError, Run.pure_apply]
  let u : State := { t with
    calls, currentUnit := some unit.id, exits := [] :: t.exits
    env := (t.env.pushDetached none).define name (.int n) }
  have hreached : Reached 1 (.assignLexical span₂ ref (.lexical span₃ ref')) u := by
    have hfirst : stmts 1 (run 1) .nil [.define span name (.int span₁ n)] { t with
        calls, currentUnit := some unit.id, exits := [] :: t.exits
        env := t.env.pushDetached none } = .value (.normal .nil) u := by
      simp only [stmts, stmt, Run.bind_apply, hint, Run.modify_apply, Run.pure_apply, u]
    have hstmts : (Block.mk place [.define span name (.int span₁ n),
        .assignLexical span₂ ref (.lexical span₃ ref')]).stmts =
        [.define span name (.int span₁ n)] ++ [.assignLexical span₂ ref (.lexical span₃ ref')] :=
      rfl
    exact .mk hblock hstmts hfirst
  refine ⟨span₂, ref, span₃, ref', u, .nested hblock (.of_ends (e := default) ?_ ?_), hreached⟩
  all_goals
    intro again hagree hend
    have hfirst : ∀ s, again (.expr (.int span₁ n)) s = .value (.int n) s := fun s => by
      rw [← hint s]
      by_contra hne
      cases (hagree _ _ (Ne.symm hne)).1
    simp only [u] at hend
    simp only [perform, block, withExits, openExits, closeExits, Block.stmts, stmts, stmt,
      Run.bind_apply, Run.modify_apply, Run.attempt, Run.pure_apply, hfirst, hend,
      Run.modifyGet_apply]
  exact fun hcutOff => by cases hcutOff

/-! ## Definedness -/

/-- Wherever a lexical name is evaluated, it has a value, and wherever it is assigned to, there is a
variable that takes the value. -/
theorem lexicals_defined (bound : Nat) :
    (∀ span ref s, AtWork bound (.expr (.lexical span ref)) s → ∃ v,
      s.env.lookup? ref.name = some v ∧
      ∀ rounds again, expr rounds again (.lexical span ref) s = .value v s) ∧
    (∀ span ref value s, Reached bound (.assignLexical span ref value) s →
      ∀ v t, run bound (.expr value) s = .value v t → ∃ owner,
        t.env.definer? ref.name t.env.current = some owner ∧
        stmt bound (run bound) (.assignLexical span ref value) s =
          .value (.normal .nil) { t with env := t.env.assignIn owner ref.name v }) := by
  refine ⟨fun span ref s h => ?_, fun span ref value s h v t hvalue => ?_⟩
  · obtain ⟨steps, owner, var, hfinds, -, hgives⟩ := h.lexical
    exact ⟨var.value, hfinds.lookup, hgives⟩
  · obtain ⟨steps, owner, var, hfinds, -, htakes⟩ := h.assignLexical hvalue
    exact ⟨owner, hfinds.definer, htakes⟩

theorem lexicals_defined_in_unit : ∃ span ref span' ref' s v,
    AtWork 1 (.expr (.lexical span' ref')) s ∧
    Reached 1 (.assignLexical span ref (.lexical span' ref')) s ∧
    s.env.lookup? ref'.name = some v ∧ run 1 (.expr (.lexical span' ref')) s = .value v s ∧
    ∃ owner, s.env.definer? ref.name s.env.current = some owner ∧
      stmt 1 (run 1) (.assignLexical span ref (.lexical span' ref')) s =
        .value (.normal .nil) { s with env := s.env.assignIn owner ref.name v } := by
  obtain ⟨span, ref, span', ref', s, hwork, hreached⟩ := rebinding_at_work
  obtain ⟨v, hlookup, hgives⟩ := (lexicals_defined 1).1 span' ref' s hwork
  have hrun : run 1 (.expr (.lexical span' ref')) s = .value v s := by
    simpa only [run_succ, perform] using hgives 0 (run 0)
  exact ⟨span, ref, span', ref', s, v, hwork, hreached, hlookup, hrun,
    (lexicals_defined 1).2 span ref _ s hreached v s hrun⟩

/-! ## Scoping -/

/-- Wherever a lexical name is evaluated or assigned to, the variable that is read or written is
that of the declaration which the parser resolved the name to, or else one of that name in a scope
that a closure captured and that is not farther out, introduced there behind all that the parser had
seen. -/
theorem lexicals_scoped (bound : Nat) :
    (∀ span ref s, AtWork bound (.expr (.lexical span ref)) s → ∃ steps owner v,
      s.env.outwards? s.env.current steps = some owner ∧
      s.env.variableIn? owner ref.name = some v ∧
      (∀ rounds again, expr rounds again (.lexical span ref) s = .value v.value s) ∧
      ref.Meets steps v) ∧
    (∀ span ref value s, Reached bound (.assignLexical span ref value) s →
      ∀ v t, run bound (.expr value) s = .value v t → ∃ steps owner var,
        t.env.outwards? t.env.current steps = some owner ∧
        t.env.variableIn? owner ref.name = some var ∧
        stmt bound (run bound) (.assignLexical span ref value) s =
          .value (.normal .nil) { t with env := t.env.assignIn owner ref.name v } ∧
        ref.Meets steps var) := by
  refine ⟨fun span ref s h => ?_, fun span ref value s h v t hvalue => ?_⟩
  · obtain ⟨steps, owner, var, hfinds, hmeets, hgives⟩ := h.lexical
    exact ⟨steps, owner, var, hfinds.outwards, hfinds.found, hgives, hmeets⟩
  · obtain ⟨steps, owner, var, hfinds, hmeets, htakes⟩ := h.assignLexical hvalue
    exact ⟨steps, owner, var, hfinds.outwards, hfinds.found, htakes, hmeets⟩

theorem lexicals_scoped_in_unit : ∃ span ref span' ref' s steps owner v,
    AtWork 1 (.expr (.lexical span' ref')) s ∧
    Reached 1 (.assignLexical span ref (.lexical span' ref')) s ∧
    s.env.outwards? s.env.current steps = some owner ∧ s.env.variableIn? owner ref'.name = some v ∧
    ref'.Meets steps v ∧ run 1 (.expr (.lexical span' ref')) s = .value v.value s ∧
    ∃ steps' owner' var, s.env.variableIn? owner' ref.name = some var ∧ ref.Meets steps' var ∧
      stmt 1 (run 1) (.assignLexical span ref (.lexical span' ref')) s =
        .value (.normal .nil) { s with env := s.env.assignIn owner' ref.name v.value } := by
  obtain ⟨span, ref, span', ref', s, hwork, hreached⟩ := rebinding_at_work
  obtain ⟨steps, owner, v, houtwards, hfound, hgives, hmeets⟩ :=
    (lexicals_scoped 1).1 span' ref' s hwork
  have hrun : run 1 (.expr (.lexical span' ref')) s = .value v.value s := by
    simpa only [run_succ, perform] using hgives 0 (run 0)
  obtain ⟨steps', owner', var, _, hfound', htakes, hmeets'⟩ :=
    (lexicals_scoped 1).2 span ref _ s hreached v.value s hrun
  exact ⟨span, ref, span', ref', s, steps, owner, v, hwork, hreached, houtwards, hfound, hmeets,
    hrun, steps', owner', var, hfound', hmeets', htakes⟩

/-- A closure is made where a name is that of an outer variable, and called when the block around
it has introduced another one. -/
def shadowing : String := "let x = 1; \x7b let f = fn() \x7b print(x); \x7d; let x = 2; f(); \x7d"

/-- The name in the closure of such a unit. -/
def nameInClosure? : Block → Option LexicalRef
  | .mk _ [_, .block (.mk _ (.define _ _ (.closure _ function) :: _))] =>
    match function.body.stmts with
    | [.expr (.call _ _ [.lexical _ ref])] => some ref
    | _ => none
  | _ => none

/-- The name was resolved to the first variable of the outermost of the four scopes around it, which
is 1.  The call prints the other variable. -/
theorem later_variable_seen : ∃ unit t ref v u,
    Session.compile 30 shadowing none none (Session.start .default) = .value unit t ∧
    nameInClosure? unit.body = some ref ∧ ref.seen.length = 4 ∧ ref.index = 0 ∧
    Session.execute 30 unit t = .value v u ∧ u.output.text = "2\n" := by
  have htest : (Session.compile 30 shadowing none none (Session.start .default)).valueWith
      (fun unit t => (Session.execute 30 unit t).valueWith fun _ u =>
        (nameInClosure? unit.body).any (fun ref => ref.seen.length = 4 ∧ ref.index = 0) &&
          u.output.text = "2\n") = true := by
    decide +kernel
  obtain ⟨unit, t, hcompile, htest⟩ := Run.Outcome.exists_value htest
  obtain ⟨v, u, hexecute, htest⟩ := Run.Outcome.exists_value htest
  obtain ⟨hname, hprinted⟩ := Bool.and_eq_true_iff.1 htest
  cases href : nameInClosure? unit.body with
  | none =>
      rw [href] at hname
      cases hname
  | some ref =>
      rw [href] at hname
      obtain ⟨hseen, hindex⟩ := of_decide_eq_true hname
      exact ⟨unit, t, ref, v, u, hcompile, href, hseen, hindex, hexecute,
        of_decide_eq_true hprinted⟩

end TwoPhase
