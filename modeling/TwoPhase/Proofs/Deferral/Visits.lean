import TwoPhase.Proofs.Deferral.Ledger
import TwoPhase.Proofs.Interpreter.Within

/-!
# Visits to a hook list

While its hooks are visited, a list may grow: a visit may add hooks to it, and may visit the list
from its start.  Whatever else a visit does, it acts on the pending hooks by commands
(`ByCommands`), and commands never take a hook out of a list or put one in front of another.

The visits that succeeded are a chain from state to state (`Visited`).  The invariant of the loop is
that the hooks visited so far are a beginning of the list as it is at that moment; so when there is
no next hook, they are all of it.
-/

namespace TwoPhase.Pending

open Run (Keeps)

variable {B σ ε α β : Type} {pending : σ → Pending B} {p q r : Pending B}

/-! ## Acting by commands -/

/-- Pending hooks that commands may lead to. -/
def LeadsTo (p q : Pending B) : Prop := ∃ commands, q = (p.performAll commands).2

theorem LeadsTo.refl (p : Pending B) : p.LeadsTo p := ⟨[], rfl⟩

theorem LeadsTo.trans (h : p.LeadsTo q) (h' : q.LeadsTo r) : p.LeadsTo r := by
  obtain ⟨first, rfl⟩ := h
  obtain ⟨rest, rfl⟩ := h'
  exact ⟨first ++ rest, (p.performAll_append first rest).symm⟩

theorem hooks_perform_extends (p : Pending B) (command : Command B) (fn : DispatchFn) :
    (p.hooks fn).toList <+: ((p.perform command).2.hooks fn).toList := by
  cases command with
  | add depth hook => exact p.hooks_add_prefix depth hook fn
  | clear depth => simp [perform, hooks]
  | unwindTo depth => simp [perform, hooks]

/-- Lists only grow, and only at their end. -/
theorem LeadsTo.hooks_extend (h : p.LeadsTo q) (fn : DispatchFn) :
    (p.hooks fn).toList <+: (q.hooks fn).toList := by
  obtain ⟨commands, rfl⟩ := h
  induction commands generalizing p with
  | nil => exact List.prefix_rfl
  | cons command commands ih => exact (p.hooks_perform_extends command fn).trans ih

/-- A run that acts on the pending hooks by commands, if at all. -/
def ByCommands (pending : σ → Pending B) (body : Run σ ε α) : Prop :=
  ∀ p : Pending B, Keeps (fun s => p.LeadsTo (pending s)) body

namespace ByCommands

theorem pure (a : α) : ByCommands pending (Pure.pure a : Run σ ε α) := fun _ => Keeps.pure a

theorem throw (e : ε) : ByCommands pending (MonadExcept.throw e : Run σ ε α) :=
  fun _ => Keeps.throw e

theorem bind {body : Run σ ε α} {next : α → Run σ ε β} (hbody : ByCommands pending body)
    (hnext : ∀ a, ByCommands pending (next a)) : ByCommands pending (body >>= next) :=
  fun p => Keeps.bind (hbody p) fun a => hnext a p

/-- A command itself, whatever it changes besides. -/
theorem perform (command : Command B) {f : σ → σ}
    (hf : ∀ s, pending (f s) = ((pending s).perform command).2) :
    ByCommands pending (modify f : Run σ ε PUnit) :=
  fun _ => Keeps.update fun s hs => hs.trans ⟨[command], hf s⟩

/-- Visiting a list, by visits that act by commands. -/
theorem visitAll {visit : Hook B → Run σ ε Unit} (hvisit : ∀ hook, ByCommands pending (visit hook))
    (rounds : Nat) (fn : DispatchFn) :
    ByCommands pending (Pending.visitAll pending rounds fn visit) := by
  intro p
  refine Keeps.iterate (fun index => Keeps.get.bind fun s => ?_) rounds 0
  split
  · exact Keeps.pure _
  · exact (hvisit _ p).bind fun _ => Keeps.pure _

theorem hooks_extend {body : Run σ ε α} (h : ByCommands pending body) {s t : σ} (fn : DispatchFn)
    (hend : (∃ a, body s = .value a t) ∨ ∃ e, body s = .error e t) :
    ((pending s).hooks fn).toList <+: ((pending t).hooks fn).toList := by
  have hkeeps := h (pending s)
  have hstart := LeadsTo.refl (pending s)
  rcases hend with ⟨a, hrun⟩ | ⟨e, hrun⟩
  · exact (hkeeps.value hstart hrun).hooks_extend fn
  · exact (hkeeps.error hstart hrun).hooks_extend fn

end ByCommands

/-! ## Visits in turn -/

/-- Visits to hooks in turn, all of which succeed. -/
inductive Visited (visit : Hook B → Run σ ε Unit) (s : σ) : List (Hook B) → σ → Prop where
  | nil : Visited visit s [] s
  | snoc {hooks : List (Hook B)} {hook : Hook B} {t u : σ} (h : Visited visit s hooks t)
      (hvisit : visit hook t = .value () u) : Visited visit s (hooks ++ [hook]) u

/-- Visits that note down which hook they are to.  Visits inside them do not. -/
def noting (visit : Hook B → Run σ ε Unit) (hook : Hook B) : Run (σ × List (Hook B)) ε Unit :=
  fun (s, seen) => (visit hook s).mapState fun t => (t, seen ++ [hook])

/-- Visits to the hooks of a list from an index on. -/
def visitFrom (pending : σ → Pending B) (rounds : Nat) (fn : DispatchFn)
    (visit : Hook B → Run σ ε Unit) (index : Nat) : Run σ ε Unit :=
  Run.iterate rounds (fun index => do
    match ((pending (← get)).hooks fn)[index]? with
    | none => return .done ()
    | some hook =>
      visit hook
      return .next (index + 1)) index

theorem visitAll_eq (pending : σ → Pending B) (rounds : Nat) (fn : DispatchFn)
    (visit : Hook B → Run σ ε Unit) :
    visitAll pending rounds fn visit = visitFrom pending rounds fn visit 0 := rfl

theorem visitFrom_succ (pending : σ → Pending B) (rounds : Nat) (fn : DispatchFn)
    (visit : Hook B → Run σ ε Unit) (index : Nat) (s : σ) :
    visitFrom pending (rounds + 1) fn visit index s =
      match ((pending s).hooks fn)[index]? with
      | none => .value () s
      | some hook => (do visit hook; visitFrom pending rounds fn visit (index + 1)) s := by
  simp only [visitFrom, Run.iterate, Run.bind_apply, Run.get_apply]
  cases ((pending s).hooks fn)[index]? with
  | none => rfl
  | some hook =>
      simp only [Run.bind_apply]
      cases visit hook s <;> rfl

/-- Noting the hooks down changes nothing. -/
theorem visitFrom_noting (pending : σ → Pending B) (rounds : Nat) (fn : DispatchFn)
    (visit : Hook B → Run σ ε Unit) (index : Nat) (s : σ) (seen : List (Hook B)) :
    (visitFrom (fun noted => pending noted.1) rounds fn (noting visit) index (s, seen)).mapState
        Prod.fst = visitFrom pending rounds fn visit index s := by
  induction rounds generalizing index s seen with
  | zero => rfl
  | succ rounds ih =>
      rw [visitFrom_succ, visitFrom_succ]
      cases ((pending s).hooks fn)[index]? with
      | none => rfl
      | some hook =>
          simp only [Run.bind_apply, noting]
          cases visit hook s with
          | value a t => exact ih (index + 1) t _
          | error e t => rfl
          | cutOff => rfl

/-- How visits to a list end that have seen some hooks since they began at a state. -/
def Ends (pending : σ → Pending B) (fn : DispatchFn) (visit : Hook B → Run σ ε Unit) (s : σ)
    (rounds : Nat) : Run.Outcome (σ × List (Hook B)) ε Unit → Prop
  | .value _ (t, seen) => seen = ((pending t).hooks fn).toList ∧ Visited visit s seen t
  | .error e (t, seen) => seen <+: ((pending t).hooks fn).toList ∧
      ∃ front hook u, seen = front ++ [hook] ∧ Visited visit s front u ∧ visit hook u = .error e t
  | .cutOff => ∃ seen u, seen <+: ((pending u).hooks fn).toList ∧ Visited visit s seen u ∧
      (seen.length = rounds ∨ ∃ hook, visit hook u = .cutOff ∧
        seen ++ [hook] <+: ((pending u).hooks fn).toList)

/-- The hooks that are done are followed by the one that is next. -/
theorem append_prefix_of_getElem? {hooks done : List (Hook B)} {hook : Hook B}
    (h : done <+: hooks) (hat : hooks[done.length]? = some hook) : done ++ [hook] <+: hooks := by
  obtain ⟨rest, rfl⟩ := h
  rw [List.getElem?_append_right (Nat.le_refl _), Nat.sub_self] at hat
  obtain ⟨more, rfl⟩ : ∃ more, rest = hook :: more := by
    cases rest with
    | nil => cases hat
    | cons first more =>
        cases hat
        exact ⟨more, rfl⟩
  exact ⟨more, by rw [List.append_assoc, List.singleton_append]⟩

/-- From visits to a beginning of the list on. -/
theorem visitFrom_ends {visit : Hook B → Run σ ε Unit}
    (hvisit : ∀ hook, ByCommands pending (visit hook)) (fn : DispatchFn) {s t : σ}
    {seen : List (Hook B)} (hvisited : Visited visit s seen t)
    (hseen : seen <+: ((pending t).hooks fn).toList) (rounds : Nat) :
    Ends pending fn visit s (seen.length + rounds)
      (visitFrom (fun noted => pending noted.1) rounds fn (noting visit) seen.length
        (t, seen)) := by
  induction rounds generalizing t seen with
  | zero => exact ⟨seen, t, hseen, hvisited, .inl rfl⟩
  | succ rounds ih =>
      rw [visitFrom_succ, ← Array.getElem?_toList]
      cases hat : ((pending t).hooks fn).toList[seen.length]? with
      | none => exact ⟨hseen.eq_of_length_le (List.getElem?_eq_none_iff.1 hat), hvisited⟩
      | some hook =>
          have hnext := append_prefix_of_getElem? hseen hat
          have hgrows := fun {u : σ} => (hvisit hook).hooks_extend (s := t) (t := u) fn
          simp only [Run.bind_apply, noting]
          cases hrun : visit hook t with
          | value a u =>
              have hrounds : seen.length + (rounds + 1) = (seen ++ [hook]).length + rounds := by
                rw [List.length_append, List.length_singleton]
                omega
              have hindex : seen.length + 1 = (seen ++ [hook]).length := by simp
              rw [hrounds, hindex]
              exact ih (hvisited.snoc hrun) (hnext.trans (hgrows (.inl ⟨a, hrun⟩)))
          | error e u =>
              exact ⟨hnext.trans (hgrows (.inr ⟨e, hrun⟩)), seen, hook, t, rfl, hvisited, hrun⟩
          | cutOff => exact ⟨seen, t, hseen, hvisited, .inr ⟨hook, hrun, hnext⟩⟩

/-- Visits to a list that visits may add to and visit again, as they may do with `visitAll` itself,
see the list as it is in the end: all of it in order if they all succeed, and otherwise all of it up
to the first hook whose visit fails. -/
theorem visitAll_sees_final_list {visit : Hook B → Run σ ε Unit}
    (hvisit : ∀ hook, ByCommands pending (visit hook)) (rounds : Nat) (fn : DispatchFn) (s : σ) :
    ByCommands pending (visitAll pending rounds fn visit) ∧
      (visitAll (fun noted => pending noted.1) rounds fn (noting visit) (s, [])).mapState Prod.fst
        = visitAll pending rounds fn visit s ∧
      Ends pending fn visit s rounds
        (visitAll (fun noted => pending noted.1) rounds fn (noting visit) (s, [])) := by
  refine ⟨ByCommands.visitAll hvisit rounds fn, ?_, ?_⟩
  · rw [visitAll_eq, visitAll_eq]
    exact visitFrom_noting pending rounds fn visit 0 s []
  · rw [visitAll_eq]
    have hends := visitFrom_ends hvisit fn (.nil (s := s)) List.nil_prefix rounds
    rwa [List.length_nil, Nat.zero_add] at hends

/-- A visit that puts off the number below twice, and then visits its list again. -/
def branching (least : Nat) (hook : Hook Nat) : Run (Pending Nat) Nat Unit := do
  if hook.block < least then
    throw hook.block
  else if 0 < hook.block then
    modify fun p => (p.add 1 (.atRuntime (hook.block - 1))).2
    modify fun p => (p.add 1 (.atRuntime (hook.block - 1))).2
  visitAll id 10 ⟨0, 1⟩ fun _ => pure ()

theorem branching_byCommands (least : Nat) (hook : Hook Nat) :
    ByCommands id (branching least hook) := by
  have hadd : ByCommands id (modify fun p => (p.add 1 (.atRuntime (hook.block - 1))).2 :
      Run (Pending Nat) Nat PUnit) :=
    ByCommands.perform (.add 1 (.atRuntime (hook.block - 1))) fun _ => rfl
  have hagain : ByCommands id
      (visitAll id 10 ⟨0, 1⟩ fun _ => pure () : Run (Pending Nat) Nat Unit) :=
    ByCommands.visitAll (fun _ => ByCommands.pure ()) 10 ⟨0, 1⟩
  unfold branching
  split
  · exact (ByCommands.throw _).bind fun _ => hagain
  · split
    · exact hadd.bind fun _ => hadd.bind fun _ => hagain
    · exact hagain

/-- From a list of the number two, such visits see seven numbers if they may, and end in the middle
of the list if zero is an error. -/
theorem branching_sees_final_list :
    (∀ least hook, ByCommands id (branching least hook)) ∧
    (∃ t seen, visitAll (fun noted => noted.1) 10 ⟨0, 1⟩ (noting (branching 0))
        ((empty.add 1 (.atRuntime 2)).2, []) = .value () (t, seen) ∧
      seen.map Hook.block = [2, 1, 1, 0, 0, 0, 0] ∧ seen = (t.hooks ⟨0, 1⟩).toList) ∧
    ∃ e t seen, visitAll (fun noted => noted.1) 10 ⟨0, 1⟩ (noting (branching 1))
        ((empty.add 1 (.atRuntime 2)).2, []) = .error e (t, seen) ∧
      seen.map Hook.block = [2, 1, 1, 0] ∧ seen <+: (t.hooks ⟨0, 1⟩).toList := by
  refine ⟨branching_byCommands, ?_, ?_⟩
  · have htest : (visitAll (fun noted => noted.1) 10 ⟨0, 1⟩ (noting (branching 0))
        ((empty.add 1 (.atRuntime 2)).2, [])).valueWith
          (fun _ t => t.2.map Hook.block = [2, 1, 1, 0, 0, 0, 0]) = true := by rfl
    obtain ⟨_, ⟨t, seen⟩, hrun, hseen⟩ := Run.Outcome.exists_value htest
    have hends := (visitAll_sees_final_list (branching_byCommands 0) 10 ⟨0, 1⟩
      (empty.add 1 (.atRuntime 2)).2).2.2
    simp only [id] at hends
    rw [hrun] at hends
    exact ⟨t, seen, hrun, of_decide_eq_true hseen, hends.1⟩
  · have htest : (visitAll (fun noted => noted.1) 10 ⟨0, 1⟩ (noting (branching 1))
        ((empty.add 1 (.atRuntime 2)).2, [])).errorWith
          (fun _ t => t.2.map Hook.block = [2, 1, 1, 0]) = true := by rfl
    obtain ⟨e, ⟨t, seen⟩, hrun, hseen⟩ := Run.Outcome.exists_error htest
    have hends := (visitAll_sees_final_list (branching_byCommands 1) 10 ⟨0, 1⟩
      (empty.add 1 (.atRuntime 2)).2).2.2
    simp only [id] at hends
    rw [hrun] at hends
    exact ⟨e, t, seen, hrun, of_decide_eq_true hseen, hends.1⟩

end TwoPhase.Pending

/-! ## What code does -/

namespace TwoPhase.Interpreter

open Run (Keeps)

variable {floor least : Nat} {c c' : Core}

theorem Core.Step.leadsTo (h : Core.Step floor least c c') : c.pending.LeadsTo c'.pending := by
  cases h with
  | ensure => exact .refl _
  | set => exact .refl _
  | spliced => exact .refl _
  | opened depth hook => exact ⟨[.add depth hook], rfl⟩
  | joined depth hook => exact ⟨[.add depth hook], rfl⟩
  | cleared depth => exact ⟨[.clear depth], rfl⟩
  | unwound depth => exact ⟨[.unwindTo depth], rfl⟩
  | trimmed depth => exact ⟨[.unwindTo depth], rfl⟩

theorem Core.Steps.leadsTo (h : Core.Steps floor least c c') : c.pending.LeadsTo c'.pending := by
  induction h with
  | refl => exact .refl _
  | tail _ hstep ih => exact ih.trans hstep.leadsTo

/-- The code that a dispatch call runs acts on the pending hooks by commands. -/
theorem reachHook_byCommands (bound : Nat) (span : Span) (hook : Hook DeferredBlock) :
    Pending.ByCommands (fun s : State => s.deferral.pending) (reachHook (run bound) span hook) :=
  fun _ s hs => ((run_respects bound s).reachHook span hook).weaken (fun _ ht => ht)
    (fun _ _ ht => hs.trans ht.core.leadsTo) (fun _ _ ht => hs.trans ht.core.leadsTo) s (.refl s)

end TwoPhase.Interpreter
