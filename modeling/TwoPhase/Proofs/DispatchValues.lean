import TwoPhase.Proofs.Discipline.Session

/-!
# Dispatch functions are no values to compute with

Deferral puts dispatch functions into globals of one name, and no code can take them out of there:
an expression that reads a global refuses a dispatch function, and a call, which reads the global
itself, does no more with it than call it.  So everything else that a state holds is plain
(`State.Contained`), and this is a discipline (`Discipline.contained`).

Probes can read any global, so there are none here.
-/

namespace TwoPhase

open Interpreter
open Session (Request Answer)

/-- A value with no dispatch function and no probe in it. -/
inductive Value.Plain : Value → Prop where
  | nil : Value.Plain .nil
  | bool (b : Bool) : Value.Plain (.bool b)
  | int (n : Int64) : Value.Plain (.int n)
  | str (text : String) : Value.Plain (.str text)
  | list {items : Array Value} (h : ∀ v ∈ items, v.Plain) : Value.Plain (.list items)
  | sub (sub : Sub) : Value.Plain (.sub sub)
  | builtin (sub : Builtin) : Value.Plain (.native (.builtin sub))

theorem Value.Plain.kind : Kind Value.Plain where
  nil := .nil
  bool := .bool
  int := .int
  str := .str
  list := .list
  sub := .sub
  probe := nofun

/-! ## Globals -/

/-- Globals that hold dispatch functions under the dispatch name only, and but for these plain
values. -/
def Globals.Contained (g : Globals) : Prop :=
  ∀ cell ∈ g.cells, ∀ v, cell.value = some v →
    v.Plain ∨ cell.name = dispatchName ∧ ∃ fn, v = .dispatch fn

namespace Globals.Contained

variable {g : Globals}

theorem bindFresh (h : g.Contained) {name : String} {value : Option Value}
    (hvalue : ∀ v, value = some v → v.Plain ∨ name = dispatchName ∧ ∃ fn, v = .dispatch fn) :
    (g.bindFresh name value).Contained := by
  intro cell hcell v hv
  rcases Array.mem_push.1 hcell with hcell | rfl
  · exact h cell hcell v hv
  · exact hvalue v hv

theorem ensure (h : g.Contained) (name : String) : (g.ensure name).Contained := by
  unfold Globals.ensure
  split
  · exact h
  · exact h.bindFresh nofun

theorem set (h : g.Contained) (cell : CellRef) {value : Value} (hvalue : value.Plain) :
    (g.set cell value).Contained := by
  intro other hother v hv
  obtain ⟨i, hi⟩ := Array.mem_iff_getElem?.1 hother
  simp only [Globals.set, Array.getElem?_modify] at hi
  split at hi
  · obtain ⟨old, _, rfl⟩ := Option.map_eq_some_iff.1 hi
    cases hv
    exact .inl hvalue
  · exact h other (Array.mem_of_getElem? hi) v hv

theorem dispatchTo (h : g.Contained) (fn : Option DispatchFn) : (dispatchTo g fn).Contained := by
  cases fn with
  | none => exact h
  | some fn => exact h.bindFresh (by rintro _ ⟨⟩; exact .inr ⟨rfl, fn, rfl⟩)

/-- A dispatch function is read from a global only. -/
theorem orDispatch (h : g.Contained) {cell : CellRef} {v : Value} (hv : g.value? cell = some v) :
    OrDispatch Value.Plain v := by
  obtain ⟨found, hfound, hvalue⟩ := Option.bind_eq_some_iff.1 hv
  exact (h found (Array.mem_of_getElem? hfound) v hvalue).imp_right (·.2)

end Globals.Contained

/-- Some cell has a dispatch function. -/
def Globals.hasDispatch (g : Globals) : Bool :=
  g.cells.any fun cell =>
    match cell.value with
    | some (.dispatch _) => true
    | _ => false

theorem Globals.exists_dispatch {g : Globals} (h : g.hasDispatch = true) :
    ∃ cell fn, g.value? cell = some (.dispatch fn) := by
  obtain ⟨i, hi, hdispatch⟩ := Array.any_eq_true.1 h
  split at hdispatch
  · rename_i fn hvalue
    exact ⟨⟨i, g.cells[i].name⟩, fn, Option.bind_eq_some_iff.2
      ⟨g.cells[i], Array.getElem?_eq_getElem hi, hvalue⟩⟩
  · cases hdispatch

/-! ## States -/

namespace Interpreter

variable {s t u : State} {fn : DispatchFn} {cell : CellRef} {rounds bound : Nat} {again : Again}

/-- Where a state holds values they are plain, but for dispatch functions under their name. -/
structure Store.Contained (m : Store) : Prop where
  globals : m.globals.Contained
  /-- In all scopes there are, whether code is at work there or a closure has captured them. -/
  lexical : ∀ v, m.env.Holds v → v.Plain
  /-- In all hooks that were put off, pending or not. -/
  hooks : ∀ v, m.pending.Holds v → v.Plain
  waiting : ∀ blocks ∈ m.exits, ∀ block ∈ blocks, block.callable.Plain
  kept : ∀ (name : String) v, m.kept[name]? = some v → v.Plain

/-- No state comes to a dispatch function but under its name. -/
def State.Contained (s : State) : Prop := s.store.Contained

namespace State.Contained

theorem keeping (h : s.Contained) : s.Keeping Value.Plain where
  global hv := h.globals.orDispatch hv
  lexical hv := h.lexical _ hv
  pending hv := h.hooks _ hv
  waiting hblocks block hblock := h.waiting _ hblocks block hblock
  kept hv := h.kept _ _ hv

/-- Other globals and hooks. -/
theorem redefer (h : s.Contained) {g : Globals} {d : Deferral DeferredBlock} (event : Event)
    (hglobals : g.Contained)
    (hpending : ∀ v, d.pending.Holds v → s.deferral.pending.Holds v ∨ v.Plain) :
    (State.record { s with globals := g, deferral := d } event).Contained where
  globals := hglobals
  lexical := h.lexical
  hooks v hv := (hpending v hv).elim (h.hooks v) id
  waiting := h.waiting
  kept := h.kept

theorem putOff {hook : Hook DeferredBlock} (h : s.Contained) (hhook : hook.block.callable.Plain)
    (hput : PutOff hook s t) : t.Contained := by
  cases hput with
  | joined fn hdepth hslot =>
      exact h.redefer _ h.globals fun v hv => (holds_add hv).imp_right (by rintro rfl; exact hhook)
  | @opened t hdepth hslot hinjected =>
      obtain ⟨unit, outer, warnings, _, _, rfl⟩ := hinjected
      exact redefer (s := { s with
          units := { unit with
            buffer := unit.buffer.insert s.deferral.mode (dispatchFragment s.depth) } :: outer
          warnings }) h _ (h.globals.dispatchTo _) fun v hv =>
        (holds_add hv).imp_right (by rintro rfl; exact hhook)

theorem cleared (h : s.Contained) (depth : Nat) : (s.cleared depth).Contained :=
  h.redefer _ (h.globals.dispatchTo _) fun _ hv =>
    .inl (holds_of_lists (s.deferral.pending.lists_clear depth) hv)

theorem unwindTo (h : s.Contained) (depth : Nat) : (s.unwindTo depth).Contained := by
  have hpending : ∀ v, (s.deferral.pending.unwindTo depth).2.Holds v →
      s.deferral.pending.Holds v ∨ v.Plain := fun _ hv =>
    .inl (holds_of_lists (s.deferral.pending.lists_unwindTo depth) hv)
  rcases unwindTo_cases depth s with ⟨_, heq⟩ | ⟨_, heq⟩
  · rw [heq]
    exact h.redefer _ h.globals hpending
  · rw [heq]
    exact h.redefer _ (h.globals.dispatchTo _) hpending

theorem await (h : s.Contained) {block : DeferredBlock} (hblock : block.callable.Plain) :
    (s.await block).Contained := by
  refine { h with waiting := fun blocks hblocks other hother => ?_ }
  rcases State.mem_await hblocks hother with rfl | ⟨waiting, hwaiting, hother⟩
  · exact hblock
  · exact h.waiting waiting hwaiting other hother

theorem opened (h : s.Contained) : s.opened.Contained := by
  refine { h with waiting := fun blocks hblocks => ?_ }
  rcases List.mem_cons.1 hblocks with rfl | hblocks
  · exact nofun
  · exact h.waiting blocks hblocks

theorem closed (h : s.Contained) : s.closed.Contained :=
  { h with waiting := fun blocks hblocks => h.waiting blocks (List.mem_of_mem_tail hblocks) }

theorem keep (h : s.Contained) (name : String) {v : Value} (hv : v.Plain) :
    State.Contained { s with kept := s.kept.insert name v } := by
  refine { h with kept := fun other w hw => ?_ }
  change (s.kept.insert name v)[other]? = some w at hw
  rw [Std.TreeMap.getElem?_insert] at hw
  split at hw
  · cases hw
    exact hv
  · exact h.kept other w hw

/-- What code does to a state at once, with plain values, keeps dispatch functions in. -/
theorem change (h : s.Contained) (hchange : Change Value.Plain s t) : t.Contained := by
  cases hchange with
  | quiet hstore _ _ => rwa [State.Contained, hstore]
  | rescope henv => exact { h with lexical := fun v hv => (henv v hv).elim (h.lexical v) id }
  | write cell hv => exact { h with globals := h.globals.set cell hv }
  | ensure name => exact { h with globals := h.globals.ensure name }
  | keep name hv => exact h.keep name hv
  | putOff hhook hput => exact h.putOff hhook hput
  | cleared depth => exact h.cleared depth
  | unwound depth => exact h.unwindTo depth
  | await hblock => exact h.await hblock

end State.Contained

/-- Dispatch functions stay in. -/
def Discipline.contained : Discipline Value.Plain where
  Inv s := s.Contained
  Leads _ t := t.Contained
  kind := Value.Plain.kind
  keeping h := h.keeping
  inv h := h
  refl h := h
  trans _ h := h
  change h hchange := h.change hchange
  opens h := h.opened
  closes _ h := h.closed
  invokes _ h := h
  exits _ ht h := h.ends ht.closed
  loads h _ := h
  loaded _ _ h := h
  failed _ _ h := h

/-- They are in at the start, where there are none. -/
theorem start_contained {settings : Settings} (hprobes : settings.probes = false) :
    (Session.start settings).Contained := by
  have hplain : ∀ v, (Session.start settings).store.Holds v → v.Plain := by
    intro v hv
    obtain ⟨native, rfl, hnative⟩ := State.nativeGlobals_holds (Session.start_holds hv)
    obtain ⟨sub, rfl⟩ := hnative hprobes
    exact .builtin sub
  refine ⟨fun found hfound v hv => .inl ?_, fun v hv => hplain v (.lexical hv),
    fun v hv => hplain v (.pending hv),
    fun blocks hblocks block hblock => hplain _ (.waiting hblocks hblock),
    fun name v hv => hplain v (.kept hv)⟩
  obtain ⟨i, hi⟩ := Array.mem_iff_getElem?.1 hfound
  exact hplain v (.global ⟨⟨i, found.name⟩, Option.bind_eq_some_iff.2 ⟨found, hi, hv⟩⟩)

/-! ## What can be done with a dispatch function -/

section

variable (hcell : s.globals.value? cell = some (.dispatch fn))

include hcell

/-- It cannot be loaded, and the attempt changes nothing. -/
theorem run_load_dispatch (span : Span) :
    ∃ e, run (bound + 1) (.expr (.global span cell)) s = .error e s ∧
      e.kind = .dispatchAsValue := by
  refine ⟨s.calls.attachBacktrace (s.locate span (s.raised .dispatchAsValue)), ?_, ?_⟩
  · simp only [run_succ, perform, expr, exprValue, loadGlobal, located, Run.mapError,
      Run.bind_apply, Run.get_apply, hcell, raise, Expr.span]
  · rw [CallStack.kind_attachBacktrace]
    rfl

/-- It can be called without arguments, -/
theorem run_call_dispatch (p q : Span) :
    run (bound + 1) (.expr (.call p (.global q cell) [])) s =
      located p (callDispatch bound (run bound) fn p) s := by
  simp only [run_succ, perform, expr, exprValue, callee, exprs, callValue, located, Run.mapError,
    Run.bind_apply, Run.get_apply, hcell, Run.pure_apply, List.isEmpty_nil, if_true, Expr.span]

omit hcell in
/-- As many arguments are evaluated as there are. -/
theorem exprs_size {es : List Expr} {values all : Array Value}
    (h : exprs again values es s = .value all t) : all.size = values.size + es.length := by
  induction es generalizing s values with
  | nil =>
      cases h
      rfl
  | cons e es ih =>
      simp only [exprs, Run.bind_apply] at h
      cases hrun : again (.expr e) s with
      | value v u =>
          rw [hrun] at h
          rw [ih h, Array.size_push, List.length_cons, Nat.add_assoc, Nat.add_comm 1]
      | error e u =>
          rw [hrun] at h
          cases h
      | cutOff =>
          rw [hrun] at h
          cases h

omit hcell in
/-- and with arguments it cannot. -/
theorem callValue_dispatch_args {args : List Value} (hargs : args ≠ []) (span : Span) :
    callValue rounds again (.dispatch fn) args span s =
      .error (s.raised (.arity dispatchName 0 args.length)) s := by
  have hempty : args.isEmpty = false := by simpa using hargs
  simp only [callValue, hempty, Bool.false_eq_true, if_false, raise]

theorem run_call_dispatch_args {args : List Expr} {values : Array Value} (hargs : args ≠ [])
    (hvalues : exprs (run bound) #[] args s = .value values t) (p q : Span) :
    ∃ e, run (bound + 1) (.expr (.call p (.global q cell) args)) s = .error e t ∧
      e.kind = .arity dispatchName 0 args.length := by
  have hsize : values.toList.length = args.length := by
    rw [Array.length_toList, exprs_size hvalues, Array.size_empty, Nat.zero_add]
  have hne : values.toList ≠ [] := by
    intro hnil
    rw [hnil, List.length_nil] at hsize
    exact hargs (List.length_eq_zero_iff.1 hsize.symm)
  have hcall : callValue bound (run bound) (.dispatch fn) values.toList p t =
      .error (t.raised (.arity dispatchName 0 values.toList.length)) t :=
    callValue_dispatch_args hne p
  refine ⟨t.calls.attachBacktrace (t.locate p (t.raised (.arity dispatchName 0 args.length))),
    ?_, ?_⟩
  · simp only [run_succ, perform, expr, exprValue, callee, located, Run.mapError, Run.bind_apply,
      Run.get_apply, hcell, Run.pure_apply, hvalues, hcall, hsize, Expr.span]
  · rw [CallStack.kind_attachBacktrace]
    rfl

end

end Interpreter

/-! ## Sessions -/

/-- In a session without probes, which is given plain values only, a dispatch function is nowhere
but in globals of its name: not between two requests, not where a part of a program is at work, and
not in what is passed and returned.  Such a global cannot be loaded, and what it holds can be called
without arguments only. -/
theorem dispatch_stays_in {settings : Settings} (hprobes : settings.probes = false) {s : State}
    (h : Session.Onward (Request.Of Value.Plain) (fun _ => True) (Session.start settings) s) :
    s.Contained ∧
    (∀ request : Request, request.Of Value.Plain → ∀ bound,
      Throughout State.Contained (fun again => request.runWith bound again) bound s ∧
      (∀ answer t, request.run bound s = .value answer t → ∀ v ∈ answer.values, v.Plain) ∧
      ∀ {n : Nat} {α : Type} {work : Work α} {u : State},
        Involves (fun again => request.runWith bound again) bound s n work u →
        work.Of Value.Plain ∧ ∀ a t, run n work u = .value a t → (work.result a).Plain) ∧
    ∀ u cell fn, u.globals.value? cell = some (.dispatch fn) → ∀ bound,
      (∀ span, ∃ e, run (bound + 1) (.expr (.global span cell)) u = .error e u ∧
        e.kind = .dispatchAsValue) ∧
      (∀ p q, run (bound + 1) (.expr (.call p (.global q cell) [])) u =
        located p (callDispatch bound (run bound) fn p) u) ∧
      (∀ p q args values t, args ≠ [] → exprs (run bound) #[] args u = .value values t →
        ∃ e, run (bound + 1) (.expr (.call p (.global q cell) args)) u = .error e t ∧
          e.kind = .arity dispatchName 0 args.length) ∧
      ∀ args, args ≠ [] → Session.call bound (.dispatch fn) args u =
        .error (u.raised (.arity dispatchName 0 args.length)) u := by
  have hs : s.Contained := Discipline.onward .contained (fun _ hrequest => hrequest)
    (fun _ _ _ _ hu => hu) h (start_contained hprobes)
  refine ⟨hs, fun request hrequest bound => ⟨?_, fun answer t hrun => ?_, fun {n α work u} hwork =>
    ?_⟩, fun u cell fn hcell bound => ⟨run_load_dispatch hcell, run_call_dispatch hcell,
      fun p q args values t hargs hvalues => run_call_dispatch_args hcell hargs hvalues p q,
      fun args hargs => callValue_dispatch_args hargs _⟩⟩
  · exact Discipline.throughout .contained fun _ hagain =>
      hagain.request (fun s _ work => run_within bound s work) bound hs hrequest
  · exact ((Discipline.request_run .contained hs hrequest bound).value hrun).2
  · obtain ⟨hu, hplain⟩ := Discipline.request_involves .contained hs hrequest hwork
    exact ⟨hplain, fun a t hrun =>
      ((Discipline.run_parts .contained n work u hu hplain).value hrun).2⟩

/-- A unit that puts a block off. -/
def deferring : String := "begin \x7b at_runtime(fn() \x7b \x7d); \x7d"

/-- The unit is constructed, and a global has a dispatch function from then on. -/
theorem dispatch_stays_in_deferring : ∃ s cell fn,
    Settings.default.probes = false ∧
    Session.Onward (Request.Of Value.Plain) (fun _ => True) (Session.start .default) s ∧
    s.Contained ∧ s.globals.value? cell = some (.dispatch fn) ∧
    ∃ e, run 1 (.expr (.global (.point 0) cell)) s = .error e s ∧ e.kind = .dispatchAsValue := by
  have htest : (Session.compile 22 deferring none none (Session.start .default)).valueWith
      (fun _ s => s.globals.hasDispatch) = true := by
    decide +kernel
  obtain ⟨unit, s, hcompile, hdispatch⟩ := Run.Outcome.exists_value htest
  obtain ⟨cell, fn, hcell⟩ := Globals.exists_dispatch hdispatch
  have hrun : (Request.compile deferring none none).run 22 (Session.start .default) =
      .value (.unit unit) s := by
    simp only [Request.run, map_eq_pure_bind, Run.bind_apply, Run.mapError, hcompile,
      Run.pure_apply]
  have hputs : (Request.compile deferring none none).Of Value.Plain := trivial
  have honward : Session.Onward (Request.Of Value.Plain) (fun _ => True)
      (Session.start .default) s := .answered .refl hputs 22 hrun
  obtain ⟨hs, _, huses⟩ := dispatch_stays_in rfl honward
  exact ⟨s, cell, fn, rfl, honward, hs, hcell, (huses s cell fn hcell 0).1 (.point 0)⟩

end TwoPhase
