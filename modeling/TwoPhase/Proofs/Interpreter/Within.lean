import TwoPhase.Proofs.Parser.Invariant
import TwoPhase.Proofs.Interpreter.Deferral
import TwoPhase.Proofs.Interpreter.Invariant

/-!
# How far code reaches

Code at a construction depth comes back to that depth.  Of the units under construction it can touch
the text of the innermost one only, by splices, and of the core what `Core.Steps` allows at its
depth (`run_within`).  The construction of a unit reaches less far still: it leaves all units as
they are, and what it does to the core is what code one deeper may do (`construct_around`).
-/

namespace TwoPhase.Interpreter

open Run (Triple Keeps)

variable {α : Type} {s t u : State}

/-- The same units, but for splices into the innermost one. -/
inductive Widened : List Construction → List Construction → Prop where
  | nil : Widened [] []
  | head (unit : Construction) (outer : List Construction) {buffer : Buffer}
      (h : unit.buffer.Spliced buffer) : Widened (unit :: outer) ({ unit with buffer } :: outer)

theorem Widened.refl (units : List Construction) : Widened units units := by
  cases units with
  | nil => exact .nil
  | cons unit outer => exact .head unit outer .refl

theorem Widened.cons {unit : Construction} {outer us : List Construction}
    (h : Widened (unit :: outer) us) :
    ∃ buffer, us = { unit with buffer } :: outer ∧ unit.buffer.Spliced buffer := by
  cases h with
  | head _ _ h => exact ⟨_, rfl, h⟩

theorem Widened.nil_eq {us : List Construction} (h : Widened [] us) : us = [] := by
  cases h
  rfl

theorem Widened.trans {us vs ws : List Construction} (h : Widened us vs) (h' : Widened vs ws) :
    Widened us ws := by
  cases h with
  | nil => exact h'
  | head unit outer h =>
      cases h' with
      | head _ _ h' => exact .head unit outer (h.trans h')

/-- What code may do between two states at one depth. -/
structure Within (s t : State) : Prop where
  depth : t.depth = s.depth
  mode : t.deferral.mode = s.deferral.mode
  units : Widened s.units t.units
  core : Core.Steps s.depth s.depth s.core t.core

/-- What the construction of a unit may do. -/
structure Around (s t : State) : Prop where
  depth : t.depth = s.depth
  mode : t.deferral.mode = s.deferral.mode
  units : t.units = s.units
  core : Core.Steps (s.depth + 1) s.depth s.core t.core

theorem Within.refl (s : State) : Within s s := ⟨rfl, rfl, .refl _, .refl⟩

theorem Within.trans (h : Within s t) (h' : Within t u) : Within s u :=
  ⟨h'.depth.trans h.depth, h'.mode.trans h.mode, h.units.trans h'.units,
    h.core.trans (h.depth ▸ h'.core)⟩

theorem Around.within (h : Around s t) : Within s t :=
  ⟨h.depth, h.mode, h.units ▸ .refl _, h.core.mono (Nat.le_succ _) (Nat.le_refl _)⟩

theorem State.Alike.core (h : s.Alike t) : t.core = s.core :=
  congrArg (fun seen => (⟨seen.globals, seen.deferral.pending, seen.history⟩ : Core)) h

theorem State.Alike.within (h : s.Alike t) : Within s t := by
  have hunits : t.units = s.units := congrArg Seen.units h
  exact ⟨congrArg Seen.depth h, congrArg (·.deferral.mode) h, hunits ▸ .refl _, h.core ▸ .refl⟩

theorem Within.stable (s : State) : Stable (Within s) := ⟨fun h halike => h.trans halike.within⟩

/-! ## The operations of deferral -/

theorem Injected.widened {text : String} (h : Injected text s t) : Widened s.units t.units := by
  obtain ⟨unit, outer, warnings, hunits, _, rfl⟩ := h
  rw [hunits]
  exact .head unit outer (.insert .refl _ _)

/-- A splice changes no more than the text of a unit and the warnings. -/
theorem Injected.same {text : String} (h : Injected text s t) :
    t.globals = s.globals ∧ t.depth = s.depth ∧ t.deferral = s.deferral ∧
      t.history = s.history := by
  obtain ⟨unit, outer, warnings, _, _, rfl⟩ := h
  exact ⟨rfl, rfl, rfl, rfl⟩

theorem PutOff.within {hook : Hook DeferredBlock} (h : PutOff hook s t) : Within s t := by
  cases h with
  | joined fn hdepth hslot =>
      exact ⟨rfl, rfl, .refl _, .single
        (.joined s.core s.depth hook fn (Nat.le_refl _) hdepth hslot)⟩
  | @opened t hdepth hslot hinjected =>
      obtain ⟨_, hsame, _, hhistory⟩ := hinjected.same
      refine ⟨hsame, rfl, hinjected.widened, ?_⟩
      have hstep : Core.Step s.depth s.depth s.core _ :=
        .opened s.core s.depth hook (Nat.le_refl _) hdepth hslot
      rw [State.core, State.record, hhistory]
      exact .single hstep

theorem defer_within (callable : Value) (after : Bool) :
    Keeps (Within s) (defer callable after) := by
  intro t ht
  rcases defer_cases callable after t with ⟨fault, h, _⟩ | ⟨hook, u, hput, h, _⟩ <;> rw [h]
  · exact ht
  · exact ht.trans hput.within

theorem lexStuff_within (text : String) : Keeps (Within s) (lexStuff text) := by
  intro t ht
  rcases lexStuff_cases text t with ⟨e, h⟩ | ⟨u, hinjected, h⟩ <;> rw [h]
  · exact ht
  · obtain ⟨hglobals, hdepth, hdeferral, hhistory⟩ := hinjected.same
    refine ht.trans ⟨hdepth, by rw [← hdeferral]; rfl, hinjected.widened, ?_⟩
    rw [State.core, State.record, hglobals, hdeferral, hhistory]
    exact .single (.spliced t.core text _)

theorem clearDepth_within (depth : Nat) : Keeps (Within s) (clearDepth depth) := by
  intro t ht
  rcases clearDepth_cases depth t with ⟨e, h⟩ | ⟨fn, hslot, h⟩ <;> rw [h]
  · exact ht
  · exact ht.trans ⟨rfl, rfl, .refl _, .single (.cleared t.core depth fn hslot)⟩

/-- Unwinding to a depth is a step of code one deeper. -/
theorem unwindTo_steps (depth : Nat) (s : State) :
    Core.Steps (depth + 1) depth s.core (s.unwindTo depth).core ∧
      (s.unwindTo depth).depth = s.depth ∧
      (s.unwindTo depth).units = s.units ∧
      (s.unwindTo depth).deferral.mode = s.deferral.mode := by
  rcases unwindTo_cases depth s with ⟨hremoved, h⟩ | ⟨hremoved, h⟩ <;> rw [h]
  · exact ⟨.single (.trimmed s.core depth (Nat.le_refl _) hremoved), rfl, rfl, rfl⟩
  · exact ⟨.single (.unwound s.core depth (Nat.le_refl _) hremoved), rfl, rfl, rfl⟩

/-- Unwinding keeps the slots that are not too deep, and no others. -/
theorem dispatchAt?_unwindTo (s : State) (depth k : Nat) :
    (s.unwindTo depth).deferral.pending.dispatchAt? k =
      if k ≤ depth then s.deferral.pending.dispatchAt? k else none := by
  rcases unwindTo_cases depth s with ⟨_, h⟩ | ⟨_, h⟩ <;>
    rw [h] <;> exact Pending.dispatchAt?_unwindTo _ depth k

/-! ## Running `begin` blocks -/

variable {rounds : Nat} {again : Again}

/-- What code does one deeper, a `begin` block does on its way there and back. -/
theorem beginBlock_triple {P Q E I J F : State → Prop} {levels : Nat} {body : Block} {span : Span}
    (hI : Stable I) (hJ : Stable J) (hF : Stable F) (hfail : ∀ s, I s → F s)
    (hagain : Triple I (again (.block body)) (fun _ => J) (fun _ => F))
    (henter : ∀ s, P s → I { s with depth := s.depth + 1, nesting := s.nesting + levels })
    (hleave : ∀ s, J s → Q { s with depth := s.depth - 1, nesting := s.nesting - levels })
    (herror : ∀ s, F s → E { s with depth := s.depth - 1, nesting := s.nesting - levels }) :
    Triple P (beginBlock again levels body span) (fun _ => Q) (fun _ => E) := by
  intro s hs
  have hbody : Triple I (inCodeOf s.constructing?
      (inFrame ⟨s!"{s.unitName}::BEGIN", .beginBlock, some span⟩ none
        (do let _ ← again (.block body)))) (fun _ => J) (fun _ => F) :=
    hI.inCodeOf_triple hJ hF
      (hI.inFrame_triple hJ hF hfail (Triple.bind hagain fun _ _ ht => ht))
  exact (Triple.ensuring (hbody.weaken (fun _ => id) (fun _ => hleave) (fun _ => herror)))
    _ (henter s hs)

/-- The same with the buffer handed over to the state and back to the parser. -/
theorem runBegin_triple {Q E : Buffer → State → Prop} {I J F : State → Prop} {left : Nat}
    {body : Block} {span : Span} {buffer : Buffer} (hI : Stable I) (hJ : Stable J) (hF : Stable F)
    (hfail : ∀ s, I s → F s) (hagain : Triple I (again (.block body)) (fun _ => J) (fun _ => F))
    (henter : I { s.withBuffer buffer with
      depth := s.depth + 1, nesting := s.nesting + (rounds - left) })
    (hleave : ∀ t, J t → Q (t.bufferOr buffer)
      { t with depth := t.depth - 1, nesting := t.nesting - (rounds - left) })
    (herror : ∀ t, F t → E (t.bufferOr buffer)
      { t with depth := t.depth - 1, nesting := t.nesting - (rounds - left) }) :
    Triple (· = (buffer, s)) ((host rounds again).runBegin left body span)
      (fun _ p => Q p.1 p.2) (fun _ p => E p.1 p.2) := by
  rintro _ rfl
  have hblock : Triple (· = s.withBuffer buffer) (beginBlock again (rounds - left) body span)
      (fun _ t => Q (t.bufferOr buffer) t) (fun _ t => E (t.bufferOr buffer) t) := by
    refine beginBlock_triple hI hJ hF hfail hagain ?_ (fun t ht => hleave t ht)
      (fun t ht => herror t ht)
    rintro _ rfl
    exact henter
  have hbegun := hblock (s.withBuffer buffer) rfl
  rw [host_runBegin]
  cases hrun : beginBlock again (rounds - left) body span (s.withBuffer buffer) with
  | value a t => simpa [hrun] using hbegun
  | error e t => simpa [hrun] using hbegun
  | cutOff => trivial

/-- What code keeps one deeper, a `begin` block keeps. -/
theorem runBegin_keeps {Q : Buffer → State → Prop} {I : State → Prop} {left : Nat} {body : Block}
    {span : Span} {buffer : Buffer} (hstable : Stable I) (hagain : Keeps I (again (.block body)))
    (henter : I { s.withBuffer buffer with
      depth := s.depth + 1, nesting := s.nesting + (rounds - left) })
    (hleave : ∀ t, I t → Q (t.bufferOr buffer)
      { t with depth := t.depth - 1, nesting := t.nesting - (rounds - left) }) :
    Triple (· = (buffer, s)) ((host rounds again).runBegin left body span)
      (fun _ p => Q p.1 p.2) (fun _ p => Q p.1 p.2) :=
  runBegin_triple hstable hstable hstable (fun _ => id) hagain henter hleave hleave

/-- What a `begin` block may do to the core. -/
theorem runBegin_steps (hnested : ∀ s {α : Type} (work : Work α), Keeps (Within s) (again work))
    (left : Nat) (body : Block) (span : Span) (buffer : Buffer) (s : State) :
    Triple (· = (buffer, s)) ((host rounds again).runBegin left body span)
      (fun _ p => Core.Steps (s.depth + 1) (s.depth + 1) s.core p.2.core)
      (fun _ p => Core.Steps (s.depth + 1) (s.depth + 1) s.core p.2.core) := by
  -- the block starts one deeper, and the core does not show the depth
  let start : State := { s.withBuffer buffer with
    depth := s.depth + 1, nesting := s.nesting + (rounds - left) }
  exact runBegin_keeps (Q := fun _ u => Core.Steps (s.depth + 1) (s.depth + 1) s.core u.core)
    (Within.stable start) (hnested start _) (.refl start) fun u hu => hu.core

/-! ## Constructing a unit -/

/-- A state of the host while it constructs one more unit than in `s`. -/
structure Hosting (s t : State) : Prop where
  depth : t.depth = s.depth
  mode : t.deferral.mode = s.deferral.mode
  units : ∃ unit, t.units = unit :: s.units
  core : Core.Steps (s.depth + 1) (s.depth + 1) s.core t.core

theorem Hosting.runBegin (hnested : ∀ s {α : Type} (work : Work α), Keeps (Within s) (again work))
    (left : Nat) (body : Block) (span : Span) :
    Triple (fun p => Hosting s p.2) ((host rounds again).runBegin left body span)
      (fun _ p => Hosting s p.2) (fun _ p => Hosting s p.2) := by
  rintro ⟨buffer, t⟩ ht
  obtain ⟨unit, hunits⟩ := ht.units
  -- the block starts one deeper, with the buffer of the parser in its unit
  let start : State := { t.withBuffer buffer with
    depth := t.depth + 1, nesting := t.nesting + (rounds - left) }
  have hstart : start.units = { unit with buffer } :: s.units := by
    simp only [start, State.withBuffer]
    rw [hunits]
  refine runBegin_keeps (Q := fun _ u => Hosting s u) (Within.stable start) (hnested start _)
    (.refl start) (fun u hu => ?_) (buffer, t) rfl
  have hcore : Core.Steps (s.depth + 1) (s.depth + 1) t.core u.core := by
    rw [← ht.depth]
    exact hu.core
  have hdepth : u.depth = t.depth + 1 := hu.depth
  refine ⟨?_, hu.mode.trans ht.mode, ?_, ht.core.trans hcore⟩
  · change u.depth - 1 = s.depth
    rw [hdepth, ht.depth, Nat.add_sub_cancel]
  · obtain ⟨after, hafter, _⟩ := Widened.cons (hstart ▸ hu.units)
    exact ⟨_, hafter⟩

theorem Hosting.ensures {t : State} (h : Hosting s t) (name : String) :
    Hosting s { t with globals := t.globals.ensure name } :=
  ⟨h.depth, h.mode, h.units, h.core.tail (.ensure _ name)⟩

theorem Hosting.installs {t : State} (h : Hosting s t) (name : String) (function : Function) :
    Hosting s ((host rounds again).installSub name function t) :=
  ⟨h.depth, h.mode, h.units, (h.core.tail (.ensure _ name)).tail (.set _ _ _)⟩

/-- What parsing may do leaves the units around the one that is constructed as they are, as soon as
nested parts do. -/
theorem Hosting.respects (hnested : ∀ s {α : Type} (work : Work α), Keeps (Within s) (again work))
    (bound : Nat) (hparts : ∀ {α : Type} (goal : Parser.Goal α),
      Triple (Parser.Before (fun _ => Hosting s) goal) (Parser.run (host rounds again) bound goal)
        (fun _ => Parser.Holds fun _ => Hosting s) (fun _ p => Hosting s p.host)) :
    Parser.Respects (host rounds again) bound (Parser.run (host rounds again) bound)
      (fun _ => Hosting s) (fun _ => Hosting s) where
  nested := hparts
  weak := id
  looks := id
  advances ht _ := ht
  resolves name ht := ht.ensures name
  installs name function ht := ht.installs name function
  begins := Parser.beginStmt_holds (E := fun _ => Hosting s) (hparts (.block .beginBlock))
    (fun _ _ ht _ => ht) (Hosting.runBegin hnested bound)

/-- The parser leaves the units around the one it constructs as they are. -/
theorem Hosting.parse (hnested : ∀ s {α : Type} (work : Work α), Keeps (Within s) (again work))
    (rounds bound : Nat) :
    Triple (Parser.Holds fun _ => Hosting s) (Parser.runUnit (host rounds again) bound)
      (fun _ p => Hosting s p.host) (fun _ p => Hosting s p.host) :=
  (Parser.runUnit_keeps (E := fun _ => Hosting s) (Hosting.respects hnested) bound).weaken
    (fun _ => id) (fun _ _ hp => hp.1.keeps) (fun _ _ => id)

/-- So does the parse of any part of its text. -/
theorem Hosting.parse_part (hnested : ∀ s {α : Type} (work : Work α), Keeps (Within s) (again work))
    (rounds bound : Nat) (goal : Parser.Goal α) :
    Triple (Parser.Before (fun _ => Hosting s) goal) (Parser.run (host rounds again) bound goal)
      (fun _ => Parser.Holds fun _ => Hosting s) (fun _ p => Hosting s p.host) :=
  Parser.run_keeps (E := fun _ => Hosting s) (Hosting.respects hnested) bound goal

theorem Hosting.leave {t : State} (h : Hosting s t) (id : UnitId) (text : String) :
    Around s (t.leaveUnit id text) := by
  obtain ⟨unit, hunits⟩ := h.units
  exact ⟨h.depth, h.mode, by simp [State.leaveUnit, hunits],
    h.core.mono (Nat.le_refl _) (Nat.le_succ _)⟩

theorem Hosting.enter (s : State) (name : String) (origin : UnitOrigin) (path : Option String)
    (source : String) : Hosting s (s.enterUnit name origin path source) :=
  ⟨rfl, rfl, ⟨_, rfl⟩, .refl⟩

/-- What constructing a unit may do, whether it succeeds or not. -/
theorem construct_around (hnested : ∀ s {α : Type} (work : Work α), Keeps (Within s) (again work))
    (name : String) (origin : UnitOrigin) (path : Option String) (source : String) :
    Triple (· = s) (construct rounds again name origin path source) (fun _ => Around s)
      (fun _ => Around s) := by
  intro t ht
  obtain rfl : s = t := ht.symm
  have hparse := Hosting.parse hnested rounds rounds
    (.start source (s.enterUnit name origin path source))
    ⟨Parser.Plain.nil, Hosting.enter s name origin path source⟩
  rw [construct_apply]
  cases hrun : Parser.runUnit (host rounds again) rounds
      (.start source (s.enterUnit name origin path source)) with
  | cutOff => trivial
  | value body p =>
      have hp : Hosting s p.host := by simpa [hrun] using hparse
      exact hp.leave _ _
  | error e p =>
      have hp : Hosting s p.host := by simpa [hrun] using hparse
      -- a unit that is given up is left first, and then its slots are unwound
      have haround := hp.leave s.records.nextId p.buffer.source
      obtain ⟨hcore, hdepth, hunits, hmode⟩ := unwindTo_steps s.depth
        (p.host.leaveUnit s.records.nextId p.buffer.source)
      exact ⟨hdepth.trans haround.depth, hmode.trans haround.mode, hunits.trans haround.units,
        haround.core.trans hcore⟩

variable {name : String} {origin : UnitOrigin} {path : Option String} {source : String}

/-- A construction fails with its parser, and unwinds what the parser left. -/
theorem construct_error {e : CompileError}
    (herror : construct rounds again name origin path source s = .error e t) :
    ∃ e' p, Parser.runUnit (host rounds again) rounds
        (.start source (s.enterUnit name origin path source)) = .error e' p ∧
      t = (p.host.leaveUnit s.records.nextId p.buffer.source).unwindTo s.depth := by
  rw [construct_apply] at herror
  cases hrun : Parser.runUnit (host rounds again) rounds
      (.start source (s.enterUnit name origin path source)) with
  | cutOff => simp [hrun] at herror
  | value body p => simp [hrun] at herror
  | error e' p =>
      simp only [hrun, Run.Outcome.error.injEq] at herror
      exact ⟨e', p, rfl, herror.2.symm⟩

/-- A construction succeeds with its parser. -/
theorem construct_value {unit : CompiledUnit}
    (hvalue : construct rounds again name origin path source s = .value unit t) :
    ∃ body p, Parser.runUnit (host rounds again) rounds
        (.start source (s.enterUnit name origin path source)) = .value body p ∧
      t = p.host.leaveUnit s.records.nextId p.buffer.source := by
  rw [construct_apply] at hvalue
  cases hrun : Parser.runUnit (host rounds again) rounds
      (.start source (s.enterUnit name origin path source)) with
  | cutOff => simp [hrun] at hvalue
  | error e p => simp [hrun] at hvalue
  | value body p =>
      simp only [hrun, Run.Outcome.value.injEq] at hvalue
      exact ⟨body, p, rfl, hvalue.2.symm⟩

/-! ## Running code -/

theorem Within.respects (bound : Nat)
    (hnested : ∀ s {α : Type} (work : Work α), Keeps (Within s) (run bound work)) (s : State) :
    Respects bound (run bound) (Within s) where
  toStable := Within.stable s
  nested := hnested s
  write cell value ht := ht.trans ⟨rfl, rfl, .refl _, .single (.set _ cell value)⟩
  defer := defer_within
  splice := lexStuff_within
  clear := clearDepth_within
  construct name origin path source t ht :=
    (construct_around hnested name origin path source).weaken (fun _ => id)
      (fun _ _ h => ht.trans h.within) (fun _ _ h => ht.trans h.within) t rfl

/-- Code reaches no further than its depth allows. -/
theorem run_within (bound : Nat) (s : State) (work : Work α) : Keeps (Within s) (run bound work) :=
  run_keeps Within.respects bound s work

theorem run_respects (bound : Nat) (s : State) : Respects bound (run bound) (Within s) :=
  Within.respects bound (fun s _ work => run_within bound s work) s

/-- What the construction of a unit may do, with all that its blocks run. -/
theorem run_construct (bound : Nat) (s : State) (name : String) (origin : UnitOrigin)
    (path : Option String) (source : String) :
    Triple (· = s) (construct bound (run bound) name origin path source) (fun _ => Around s)
      (fun _ => Around s) :=
  construct_around (fun s _ work => run_within bound s work) name origin path source

/-- What a `begin` block may do, with all that it runs. -/
theorem run_begin (bound left : Nat) (body : Block) (span : Span) {buffer : Buffer}
    (h : Hosting s t) :
    Triple (· = (buffer, t)) ((host bound (run bound)).runBegin left body span)
      (fun _ p => Hosting s p.2 ∧ Core.Steps (t.depth + 1) (t.depth + 1) t.core p.2.core)
      (fun _ p => Hosting s p.2 ∧ Core.Steps (t.depth + 1) (t.depth + 1) t.core p.2.core) := by
  have hnested : ∀ s {α : Type} (work : Work α), Keeps (Within s) (run bound work) :=
    fun s _ work => run_within bound s work
  refine Triple.weaken (Triple.and (Hosting.runBegin hnested left body span)
    (runBegin_steps hnested left body span buffer t)) ?_ (fun _ _ => id) (fun _ _ => id)
  rintro _ rfl
  exact ⟨h, rfl⟩

end TwoPhase.Interpreter
