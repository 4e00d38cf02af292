import TwoPhase.Proofs.Interpreter.Awaiting
import TwoPhase.Proofs.Parser.Rounds

/-!
# Relocation

What a `begin` block puts off in precise mode is relocated to the place right behind the block.
There the parser finds a call of the dispatch name first, ahead of all that followed the block, then
a marker, and then what followed the block.  The call holds the cell that the dispatch name stood
for when the call was parsed, and the function in that cell has the hooks of the block, in the order
in which they were put off.

Units that the block constructs bind the dispatch name as well, and the marker binds it back.  Each
time the name gets a fresh cell, so the call keeps the function that it was parsed with; and once
the marker has cleared the slot, no hook joins the list of that function any more.
-/

namespace TwoPhase

open Interpreter
open Run (Triple Yields)
open Scan (Reads)

namespace Interpreter

theorem lookup?_dispatchTo (g : Globals) (target : Option DispatchFn) :
    (dispatchTo g target).lookup? dispatchName = target.map .dispatch := by
  cases target with
  | none => exact Globals.lookup?_remove_self _ _
  | some fn => exact Globals.lookup?_bindFresh_self _ _ _

end Interpreter

/-! ## What lasts -/

namespace Interpreter.Core

variable {floor least : Nat} {c c' : Core}

/-- The cell of a name that nothing writes stays as it is, whatever the name is bound to. -/
theorem Step.cell_kept (h : Step floor least c c') {id : Nat} {cell : Cell}
    (hcell : c.globals.cells[id]? = some cell) (huntouched : c'.globals.Untouched cell.name) :
    c'.globals.cells[id]? = some cell := by
  have hfresh : ∀ name value, (c.globals.bindFresh name value).cells[id]? = some cell := by
    intro name value
    have hsize := (Array.getElem?_eq_some_iff.1 hcell).1
    rw [Globals.bindFresh, Array.getElem?_push, if_neg (by omega), hcell]
  have hdispatch : ∀ target, (dispatchTo c.globals target).cells[id]? = some cell := by
    intro target
    cases target with
    | some fn => exact hfresh _ _
    | none => exact hcell
  cases h with
  | ensure name =>
      unfold Globals.ensure
      dsimp only
      split
      · exact hcell
      · exact hfresh _ _
  | set written value =>
      -- the write was to the cell of another name
      have hne : written.id ≠ id := by
        rintro rfl
        exact huntouched.of_set.2 cell hcell rfl
      simp only [Globals.set, Array.getElem?_modify, if_neg hne, hcell]
  | opened => exact hdispatch _
  | joined => exact hcell
  | spliced => exact hcell
  | cleared => exact hdispatch _
  | unwound => exact hdispatch _
  | trimmed => exact hcell

theorem Steps.cell_kept (h : Steps floor least c c') {id : Nat} {cell : Cell}
    (hcell : c.globals.cells[id]? = some cell) (huntouched : c'.globals.Untouched cell.name) :
    c'.globals.cells[id]? = some cell := by
  induction h with
  | refl => exact hcell
  | tail _ hstep ih => exact hstep.cell_kept (ih (hstep.untouched huntouched)) huntouched

/-- A cell with a dispatch function in it, whose list no slot has any more. -/
structure Settled (cell : CellRef) (fn : DispatchFn) (hooks : List (Hook DeferredBlock))
    (c : Core) :
    Prop where
  owner : ∃ content, c.globals.cells[cell.id]? = some content ∧ content.name = dispatchName
  value : c.globals.value? cell = some (.dispatch fn)
  hooks : (c.pending.hooks fn).toList = hooks
  detached : c.pending.Detached fn

/-- Where nothing writes to the dispatch name, a settled cell has the same function for good, with
the same hooks. -/
theorem Settled.steps {cell : CellRef} {fn : DispatchFn} {hooks : List (Hook DeferredBlock)}
    (h : c.Settled cell fn hooks) (hsound : c.Sound) (hsteps : Steps floor least c c')
    (huntouched : c'.globals.Untouched dispatchName) : c'.Settled cell fn hooks := by
  obtain ⟨content, hcell, hname⟩ := h.owner
  have hkept : c'.globals.cells[cell.id]? = some content :=
    hsteps.cell_kept hcell (hname ▸ huntouched)
  obtain ⟨commands, hpending⟩ := hsteps.performed
  obtain ⟨hdetached, hhooks⟩ := h.detached.performAll hsound.pending commands
  refine ⟨⟨content, hkept, hname⟩, ?_, ?_, hpending ▸ hdetached⟩
  · rw [← h.value, Globals.value?, Globals.value?, hkept, hcell]
  · rw [hpending, hhooks, h.hooks]

end Interpreter.Core

/-! ## The text behind the block -/

/-- What announces a slot does not run into what follows it. -/
theorem getLast?_dispatchFragment (depth : Nat) :
    (dispatchFragment depth).toList.getLast? = some '\x7d' := by
  rw [toList_dispatchFragment, toList_clearFragment, ← List.append_assoc, ← List.append_assoc,
    List.getLast?_append]
  rfl

/-- In precise mode, the dispatch call is the first thing behind the cursor, then comes the marker,
and then what was there before. -/
theorem reads_insert_fragment (b : Buffer) (depth : Nat) :
    Reads (b.insert .precise (dispatchFragment depth)).after dispatchKinds
      (' ' :: ((clearFragment depth).toList ++ b.after)) := by
  have hback : Buffer.fuses (dispatchFragment depth).toList.getLast? b.after.head? = false := by
    rw [getLast?_dispatchFragment]
    rfl
  have hreads := reads_dispatchFragment depth b.after
  change Reads (Buffer.padded _ _ _ ++ b.after) _ _
  rw [Buffer.padded, hback, if_neg Bool.false_ne_true, List.append_nil, List.append_assoc]
  split
  · exact .of_skip (Scan.skip_blank rfl _) hreads
  · exact hreads

/-! ## Running a block -/

namespace Parser

/-- A round of a parser whose host is the interpreter. -/
abbrev hostedRound (bound rounds : Nat) (level : Level) (stmts : List Stmt) :
    Parse Interpreter.State (Run.Step (List Stmt) Block) :=
  round (host bound (Interpreter.run bound)) rounds
    (run (host bound (Interpreter.run bound)) rounds)
    level stmts

/-- A `begin` block that a parser has come to and run. -/
structure BeginRun (bound rounds : Nat) where
  /-- In front of the keyword. -/
  start : State Interpreter.State
  body : Block
  /-- Behind the closing brace, before the block runs. -/
  ready : State Interpreter.State
  /-- After the block has run. -/
  done : State Interpreter.State
  keyword : start.buffer.found.token.kind = .kwBegin
  parsed : run (host bound (Interpreter.run bound)) rounds (.block .beginBlock)
    { start with buffer := start.buffer.next.2 } = .value body ready
  ran : runBegin (host bound (Interpreter.run bound)) rounds body
    (start.buffer.found.token.span.merge body.span) ready = .value () done

namespace BeginRun

variable {bound rounds : Nat} (r : BeginRun bound rounds) {s : Interpreter.State}

/-- The construction depth of the code in the block. -/
def depth : Nat := r.ready.host.depth + 1

/-- The length of the record when the block starts to run. -/
def since : Nat := r.ready.host.history.length

/-- The hooks that the block puts off at its depth, in order. -/
def hooks : List (Hook DeferredBlock) := r.done.host.core.putOff r.depth r.since

/-- The core once the marker behind the block has run. -/
def cleared : Core := (r.done.host.cleared r.depth).core

theorem ran_host : (host bound (Interpreter.run bound)).runBegin rounds r.body
      (r.start.buffer.found.token.span.merge r.body.span) (r.ready.buffer, r.ready.host)
        = .value () (r.done.buffer, r.done.host) ∧ r.done.scopes = r.ready.scopes := by
  have hran := r.ran
  unfold runBegin at hran
  dsimp only at hran
  cases hbegin : (host bound (Interpreter.run bound)).runBegin rounds r.body
      (r.start.buffer.found.token.span.merge r.body.span) (r.ready.buffer, r.ready.host) with
  | cutOff => simp [hbegin, Run.Outcome.mapState] at hran
  | error e p => simp [hbegin, Run.Outcome.mapState] at hran
  | value a p =>
      simp only [hbegin, Run.Outcome.mapState, Run.Outcome.value.injEq] at hran
      obtain ⟨-, hdone⟩ := hran
      rw [← hdone]
      exact ⟨rfl, rfl⟩

/-- The block takes a round of the loop around it, and adds no statement. -/
theorem round_start (level : Level) (stmts : List Stmt) :
    hostedRound bound rounds level stmts r.start = .value (.next stmts) r.done := by
  obtain ⟨hran, hscopes⟩ := r.ran_host
  have hround : hostedRound bound rounds level stmts r.start
      = .value (.next stmts) ⟨r.done.buffer, r.ready.scopes, r.done.host⟩ :=
    round_begin r.keyword r.parsed hran
  rw [← hscopes] at hround
  exact hround

/-- A block that runs in precise mode, and finds and leaves the things it shares with others in
order: all slots are shallower than its depth, and the dispatch name has the function of the deepest
one; the code that it runs splices no text in by hand, and clears no depth but deeper ones; and
nothing ever wrote to the two names that deferral uses. -/
structure Orderly : Prop where
  precise : r.ready.host.deferral.mode = .precise
  shallower : ∀ k ∈ r.ready.host.pendingDepths, k < r.depth
  bound : r.ready.host.globals.lookup? dispatchName =
    (r.ready.host.deferral.pending.nearest? r.ready.host.depth).map .dispatch
  calm : r.done.host.core.Calm r.depth r.since
  dispatchUntouched : r.done.host.globals.Untouched dispatchName
  clearUntouched : r.done.host.globals.Untouched clearName

section Ran

variable {r}
variable (hs : Reachable s) (hparse : Holds (fun _ => Hosting s) r.start)

include hparse

theorem ready_holds : Holds (fun _ => Hosting s) r.ready :=
  (Hosting.parse_part (fun s _ work => run_within bound s work) bound rounds
    (.block .beginBlock)).value (s := { r.start with buffer := r.start.buffer.next.2 })
    ⟨hparse.plain, hparse.keeps⟩ r.parsed

theorem done_hosting : Hosting s r.done.host ∧
    Core.Steps r.depth r.depth r.ready.host.core r.done.host.core :=
  (run_begin bound rounds r.body _ (ready_holds hparse).keeps).value rfl r.ran_host.1

theorem done_mode : r.done.host.deferral.mode = r.ready.host.deferral.mode :=
  (done_hosting hparse).1.mode.trans (ready_holds hparse).keeps.mode.symm

variable (hr : r.Orderly)

omit hparse in
include hr in
theorem slot_ready {k : Nat} (hk : r.ready.host.depth < k) :
    r.ready.host.deferral.pending.dispatchAt? k = none := by
  by_contra hslot
  have hmem : k ∈ r.ready.host.pendingDepths :=
    Pending.mem_activeDepths.2 (Option.isSome_iff_ne_none.2 hslot)
  have hlt : k < r.ready.host.depth + 1 := hr.shallower k hmem
  omega

include hs hr

/-- The slots at other depths are as the block found them. -/
theorem slot_done {k : Nat} (hk : k ≠ r.depth) :
    r.done.host.deferral.pending.dispatchAt? k = r.ready.host.deferral.pending.dispatchAt? k := by
  obtain ⟨-, hsteps⟩ := done_hosting hparse
  rcases Nat.lt_or_gt_of_ne hk with hshallower | hdeeper
  · exact hsteps.slot_kept hshallower (Nat.le_of_lt hshallower) (Nat.le_refl _)
      (hr.calm.cleared_notMem (Nat.le_of_lt hshallower))
  · have hdeep : r.ready.host.depth < k := Nat.lt_of_succ_lt hdeeper
    rw [slot_ready hr hdeep]
    exact (runBegin_deeper hs (ready_holds hparse).keeps fun k => slot_ready hr).value rfl
      r.ran_host.1 (hr.calm.undisturbed hr.clearUntouched) k hdeeper

/-- What the dispatch name stands for once the block has run: the hooks of the block. -/
theorem dispatch_done (hsome : r.hooks ≠ []) : ∃ fn,
    r.done.host.globals.lookup? dispatchName = some (.dispatch fn) ∧ fn.depth = r.depth ∧
      r.done.host.deferral.pending.dispatchAt? r.depth = some fn ∧
      (r.done.host.deferral.pending.hooks fn).toList = r.hooks := by
  have hready := (ready_holds hparse).keeps
  obtain ⟨hdone, hsteps⟩ := done_hosting hparse
  have hgathered : Core.Gathered r.depth r.since r.done.host.core :=
    hsteps.gathered (hs.hosting hready).sound (Nat.succ_ne_zero _)
      (slot_ready hr (Nat.lt_succ_self _)) hr.dispatchUntouched hr.calm
  refine hgathered.dispatch (hs.hosting hdone).sound hr.dispatchUntouched (fun k hk => ?_) hsome
  have hkept := slot_done hs hparse hr (Nat.ne_of_gt hk)
  rw [slot_ready hr (Nat.lt_of_succ_lt hk)] at hkept
  exact hkept

/-- The parser gets its buffer back with the slot of the block announced behind the cursor. -/
theorem buffer_done (hsome : r.hooks ≠ []) :
    r.done.buffer = r.ready.buffer.insert .precise (dispatchFragment r.depth) := by
  obtain ⟨fn, -, -, hslot, -⟩ := dispatch_done hs hparse hr hsome
  have hbuffer : r.done.buffer = r.done.host.deferral.announced r.depth r.ready.buffer :=
    (runBegin_announced (ready_holds hparse).keeps
      (slot_ready hr (Nat.lt_succ_self _))).value rfl r.ran_host.1 hr.calm
  rw [hbuffer, Deferral.announced_some hslot, done_mode hparse, hr.precise]

/-! ## The call and the marker -/

omit hparse hs hr in
theorem host_resolveGlobal {name : String} {value : Value} {t : Interpreter.State}
    {again : Interpreter.Again} (h : t.globals.lookup? name = some value) :
    (host rounds again).resolveGlobal name t = (t.globals.cell name, t) := by
  have hensure := (Globals.cell_of_lookup? h).2
  exact Prod.ext rfl (congrArg (fun g => { t with globals := g }) hensure)

/-- The round after the block reads the dispatch call. -/
theorem round_done (hsome : r.hooks ≠ []) (level : Level) (stmts : List Stmt) :
    Yields (· = r.done) (hostedRound bound rounds level stmts) fun step p =>
      (∃ span span', step = .next (.expr (.call span
        (.global span' (r.done.host.globals.cell dispatchName)) []) :: stmts)) ∧
      At [] (' ' :: ((clearFragment r.depth).toList ++ r.ready.buffer.after)) r.done.scopes
        r.done.host p := by
  obtain ⟨fn, hlookup, -⟩ := dispatch_done hs hparse hr hsome
  have hreads := reads_insert_fragment r.ready.buffer r.depth
  rw [← buffer_done hs hparse hr hsome] at hreads
  have hplain : Plain r.done.scopes := r.ran_host.2 ▸ (ready_holds hparse).plain
  refine (round_dispatch hplain (host_resolveGlobal hlookup)).weaken ?_ (fun _ _ => id)
    (fun _ _ => id)
  rintro _ rfl
  exact ⟨hreads, rfl, rfl⟩

/-- The round after that reads and runs the marker. -/
theorem round_marker (level : Level) (stmts : List Stmt) :
    Yields (At [] (' ' :: ((clearFragment r.depth).toList ++ r.ready.buffer.after)) r.done.scopes
        r.done.host) (hostedRound bound rounds level stmts) fun step p =>
      step = .next stmts ∧ p.buffer.after = r.ready.buffer.after ∧ p.host.core = r.cleared := by
  have hdone := (done_hosting hparse).1
  have hlookup := (hs.hosting hdone).sound.clearing hr.clearUntouched
  have hcell := (Globals.cell_of_lookup? hlookup).1
  have hplain : Plain r.done.scopes := r.ran_host.2 ▸ (ready_holds hparse).plain
  have hround : Yields (At (clearKinds r.depth) r.ready.buffer.after r.done.scopes r.done.host)
      (hostedRound bound rounds level stmts) fun step p => step = .next stmts ∧
        p.scopes = r.done.scopes ∧ p.buffer.after = r.ready.buffer.after ∧
        p.host.core = r.cleared := by
    refine round_clear (Q := fun b t => b.after = r.ready.buffer.after ∧ State.core t = r.cleared)
      hplain (host_resolveGlobal hlookup) fun buffer span e span' hafter he => ?_
    refine (runBegin_clear he hcell bound rounds buffer span span').weaken (fun _ => id) ?_
      (fun _ _ => id)
    rintro _ p ⟨-, hbuffer, halike⟩
    exact ⟨hbuffer ▸ hafter, halike.core⟩
  refine hround.weaken ?_ (fun _ _ hp => ⟨hp.1, hp.2.2⟩) (fun _ _ => id)
  rintro p ⟨hreads, hscopes, hhost⟩
  refine ⟨?_, hscopes, hhost⟩
  -- a blank is left over from what announced the slot
  rw [hreads.eq_of_nil]
  exact .of_skip (Scan.skip_blank rfl _) (reads_clearFragment _ _)

/-! ## Behind the marker -/

omit hparse hs hr in
theorem untouched_cleared {name : String} (h : r.done.host.globals.Untouched name) :
    r.cleared.globals.Untouched name := by
  unfold cleared State.cleared
  dsimp only [State.record, State.core]
  cases (r.done.host.deferral.pending.clear r.depth).2.nearest? (r.depth - 1) with
  | none => exact h
  | some fn => exact h.bindFresh _ _

omit hparse hs hr in
/-- Running the marker is a step. -/
theorem step_cleared {fn : DispatchFn}
    (hslot : r.done.host.deferral.pending.dispatchAt? r.depth = some fn) :
    Core.Step 0 0 r.done.host.core r.cleared :=
  .cleared r.done.host.core r.depth fn hslot

theorem sound_cleared (hsome : r.hooks ≠ []) : r.cleared.Sound := by
  obtain ⟨fn, -, -, hslot, -⟩ := dispatch_done hs hparse hr hsome
  exact (hs.hosting (done_hosting hparse).1).sound.step (step_cleared hslot)

/-- The cell that the call holds is settled once the marker has run. -/
theorem settled_cleared (hsome : r.hooks ≠ []) : ∃ fn, fn.depth = r.depth ∧
    r.cleared.Settled (r.done.host.globals.cell dispatchName) fn r.hooks := by
  obtain ⟨fn, hlookup, hdepth, hslot, hhooks⟩ := dispatch_done hs hparse hr hsome
  have hsound := (hs.hosting (done_hosting hparse).1).sound
  have hstep := step_cleared hslot
  -- the name has a cell of its own, which the marker does not change
  obtain ⟨hvalue, -⟩ := Globals.cell_of_lookup? hlookup
  have hget : r.done.host.globals.get? dispatchName =
      some (r.done.host.globals.cell dispatchName) := by
    unfold Globals.lookup? at hlookup
    unfold Globals.cell
    cases hget : r.done.host.globals.get? dispatchName with
    | none => simp [hget] at hlookup
    | some cell => rfl
  obtain ⟨content, hcell, hname⟩ := hsound.named _ _ hget
  have hkept := hstep.cell_kept hcell (hname ▸ untouched_cleared hr.dispatchUntouched)
  -- the marker takes the list from its slot
  have hremoves : (Pending.Command.clear (B := DeferredBlock) r.depth).removes r.depth = true :=
    decide_eq_true rfl
  obtain ⟨hdetached, hsame⟩ := Pending.perform_removes hsound.pending hslot hremoves
  refine ⟨fn, hdepth, ⟨content, hkept, hname⟩, ?_, ?_, hdetached⟩
  · have hcontent : content.value = some (.dispatch fn) := by
      have hvalue : r.done.host.core.globals.value? (r.done.host.globals.cell dispatchName) = _ :=
        hvalue
      rw [Globals.value?, hcell, Option.bind_some] at hvalue
      exact hvalue
    rw [Globals.value?, hkept, Option.bind_some, hcontent]
  · rw [← hhooks]
    exact congrArg Array.toList hsame

/-- Slots and binding are as the block found them. -/
theorem restored_cleared :
    (∀ k, r.cleared.pending.dispatchAt? k = r.ready.host.deferral.pending.dispatchAt? k) ∧
      r.cleared.globals.lookup? dispatchName = r.ready.host.globals.lookup? dispatchName := by
  have hat : ∀ k, r.cleared.pending.dispatchAt? k =
      r.ready.host.deferral.pending.dispatchAt? k := by
    intro k
    have hclear : r.cleared.pending.dispatchAt? k = _ :=
      Pending.dispatchAt?_clear r.done.host.deferral.pending r.depth k
    rw [hclear]
    split
    · rename_i hk
      rw [slot_ready hr (k := k) (hk ▸ Nat.lt_succ_self _)]
    · rename_i hk
      exact slot_done hs hparse hr hk
  refine ⟨hat, ?_⟩
  rw [hr.bound, ← Pending.nearest?_congr fun k _ _ => hat k]
  change (dispatchTo _ _).lookup? dispatchName = _
  rw [lookup?_dispatchTo]
  rfl

end Ran

end BeginRun

end Parser

/-! ## The main statement -/

open TwoPhase.Parser (BeginRun hostedRound)

/-- The hooks that a `begin` block puts off in precise mode are called right behind it.  The block
itself adds no statement.  The next round of the loop around it adds a call of the dispatch name, in
front of all that followed the block, and the round after that runs the marker, adds nothing, and
comes to what followed the block.  The slots and the binding of the name are then as the block found
them.  The cell that the call holds has a function of the depth of the block, with the hooks of the
block in order; and whatever is done later, as long as nothing writes to the dispatch name, it keeps
this function, and the function these hooks. -/
theorem relocation_exact {bound rounds : Nat} {s : State} (r : BeginRun bound rounds)
    (hs : Reachable s) (hparse : Parser.Holds (fun _ => Hosting s) r.start) (hr : r.Orderly)
    (hsome : r.hooks ≠ []) (level : Parser.Level) (stmts : List Stmt) :
    hostedRound bound rounds level stmts r.start = .value (.next stmts) r.done ∧
    ∀ step p, hostedRound bound rounds level stmts r.done = .value step p →
      ∃ span span', let cell := r.done.host.globals.cell dispatchName
        let call := Stmt.expr (.call span (.global span' cell) [])
        step = .next (call :: stmts) ∧
        p.buffer.after = ' ' :: ((clearFragment r.depth).toList ++ r.ready.buffer.after) ∧
        ∀ step' p', hostedRound bound rounds level (call :: stmts) p = .value step' p' →
          step' = .next (call :: stmts) ∧ p'.buffer.after = r.ready.buffer.after ∧
          (∀ k, p'.host.deferral.pending.dispatchAt? k =
            r.ready.host.deferral.pending.dispatchAt? k) ∧
          p'.host.globals.lookup? dispatchName = r.ready.host.globals.lookup? dispatchName ∧
          p'.host.globals.Untouched dispatchName ∧
          ∃ fn : DispatchFn, fn.depth = r.depth ∧ ∀ c, Core.Steps 0 0 p'.host.core c →
            c.globals.Untouched dispatchName →
              c.globals.value? cell = some (.dispatch fn) ∧
                (c.pending.hooks fn).toList = r.hooks := by
  refine ⟨r.round_start level stmts, fun step p hstep => ?_⟩
  obtain ⟨⟨span, span', hcall⟩, hbehind⟩ :=
    (BeginRun.round_done hs hparse hr hsome level stmts).value rfl hstep
  refine ⟨span, span', hcall, hbehind.reads.eq_of_nil, fun step' p' hstep' => ?_⟩
  obtain ⟨hmarker, hafter, hcore⟩ :=
    (BeginRun.round_marker hs hparse hr level _).value hbehind hstep'
  obtain ⟨hslots, hbinding⟩ := BeginRun.restored_cleared hs hparse hr
  obtain ⟨fn, hdepth, hsettled⟩ := BeginRun.settled_cleared hs hparse hr hsome
  have huntouched := BeginRun.untouched_cleared hr.dispatchUntouched
  have hsound := BeginRun.sound_cleared hs hparse hr hsome
  rw [← hcore] at hslots hbinding hsettled huntouched hsound
  refine ⟨hmarker, hafter, hslots, hbinding, huntouched, fn, hdepth, fun c hsteps hc => ?_⟩
  have hlast := hsettled.steps hsound hsteps hc
  exact ⟨hlast.value, hlast.hooks⟩

/-- A session with a module that has a block of its own, and puts another hook off when it runs. -/
def withModule : State :=
  Session.addModule "m" "begin \x7b at_runtime(print); \x7d at_runtime(print);"
    (Session.start .default)

/-- A block that requires the module between two hooks of its own. -/
def requiring : String :=
  "begin \x7b at_runtime(fn() \x7b \x7d); require(\"m\"); after_runtime(print); \x7d print(2);"

/-- The parser of that text, at its start. -/
def requiringStart : Parser.State State :=
  .start requiring (withModule.enterUnit "main" .main none requiring)

/-- The hook that the module puts off when it runs is called between the two of the block, although
a slot of the block of the module was opened and cleared meanwhile. -/
theorem relocation_around_module : ∃ (r : BeginRun 30 30) (step : Run.Step (List Stmt) Block)
    (p : Parser.State State) (step' : Run.Step (List Stmt) Block) (p' : Parser.State State),
    r.start = requiringStart ∧ Reachable withModule ∧
    Parser.Holds (fun _ => Hosting withModule) r.start ∧ r.Orderly ∧ r.hooks.length = 3 ∧
    hostedRound 30 30 .unit [] r.done = .value step p ∧
    hostedRound 30 30 .unit (match step with | .next stmts => stmts | .done _ => []) p
      = .value step' p' ∧
    p'.buffer.after = " print(2);".toList ∧
    ∃ fn : DispatchFn, p'.host.globals.value? (r.done.host.globals.cell dispatchName)
      = some (.dispatch fn) ∧ (p'.host.deferral.pending.hooks fn).toList = r.hooks := by
  have htest : (Parser.run (host 30 (run 30)) 30 (.block .beginBlock)
      { requiringStart with buffer := requiringStart.buffer.next.2 }).valueWith (fun body ready =>
        (Parser.runBegin (host 30 (run 30)) 30 body
          (requiringStart.buffer.found.token.span.merge body.span) ready).valueWith fun _ done =>
            (hostedRound 30 30 .unit [] done).valueWith fun step p =>
              (hostedRound 30 30 .unit
                (match step with | .next stmts => stmts | .done _ => []) p).valueWith
                fun _ _ => ready.host.deferral.mode = .precise ∧ ready.host.pendingDepths = [] ∧
                  (ready.host.globals.lookup? dispatchName).isNone ∧
                  (ready.host.deferral.pending.nearest? ready.host.depth).isNone ∧
                  done.host.core.Calm (ready.host.depth + 1) ready.host.history.length ∧
                  done.host.globals.Untouched dispatchName ∧ done.host.globals.Untouched clearName ∧
                  (done.host.core.putOff (ready.host.depth + 1)
                    ready.host.history.length).length = 3 ∧
                  ready.buffer.after = " print(2);".toList) = true := by
    decide +kernel
  obtain ⟨body, ready, hparsed, htest⟩ := Run.Outcome.exists_value htest
  obtain ⟨_, done, hran, htest⟩ := Run.Outcome.exists_value htest
  obtain ⟨step, p, hstep, htest⟩ := Run.Outcome.exists_value htest
  obtain ⟨step', p', hstep', htest⟩ := Run.Outcome.exists_value htest
  obtain ⟨hprecise, hnone, hunbound, hnearest, hcalm, hdispatch, hclear, hlength, hafter⟩ :=
    of_decide_eq_true htest
  have hkeyword : requiringStart.buffer.found.token.kind = .kwBegin := by decide +kernel
  let r : BeginRun 30 30 := ⟨requiringStart, body, ready, done, hkeyword, hparsed, hran⟩
  have hs : Reachable withModule := (Reachable.start .default).addModule _ _
  have hparse : Parser.Holds (fun _ => Hosting withModule) r.start :=
    ⟨Parser.Plain.nil, Hosting.enter withModule "main" .main none requiring⟩
  have hbound : ready.host.globals.lookup? dispatchName =
      (ready.host.deferral.pending.nearest? ready.host.depth).map .dispatch := by
    rw [Option.isNone_iff_eq_none.1 hunbound, Option.isNone_iff_eq_none.1 hnearest]
    rfl
  have hr : r.Orderly := ⟨hprecise, by simp [r, hnone], hbound, hcalm, hdispatch, hclear⟩
  have hlength : r.hooks.length = 3 := hlength
  have hsome : r.hooks ≠ [] := List.ne_nil_of_length_pos (by omega)
  obtain ⟨-, hrest⟩ := relocation_exact r hs hparse hr hsome .unit []
  obtain ⟨span, span', rfl, -, hmarker⟩ := hrest step p hstep
  obtain ⟨-, hbehind, -, -, huntouched, fn, -, hlasting⟩ := hmarker step' p' hstep'
  exact ⟨r, _, p, step', p', rfl, hs, hparse, hr, hlength, hstep, hstep', hbehind.trans hafter, fn,
    hlasting _ .refl huntouched⟩

end TwoPhase
