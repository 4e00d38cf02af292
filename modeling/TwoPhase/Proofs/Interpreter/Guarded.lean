import TwoPhase.Proofs.Reachable
import TwoPhase.Proofs.Interpreter.Clearing
import TwoPhase.Proofs.Interpreter.History

/-!
# Pending slots have their markers ahead

Code at a construction depth leaves no slot that is deeper, and as long as the slot of its own depth
is pending, the marker that clears it is in sight in the innermost unit.  The parser of that unit
comes to the marker sooner or later, and where it has parsed everything, no slot is left.

This holds as long as nothing comes between a marker and its effect: no program gives the name of
the clearing sub another meaning, and no text is spliced in while hooks are pending that swallows
what follows it.
-/

namespace TwoPhase.Interpreter

open Run (Triple Yields Keeps)

variable {α : Type} {s t u : State} {floor least length depth : Nat} {c c' : Core}

/-! ## The condition -/

/-- Since the history had some length, nothing has come between a marker and its effect. -/
structure Core.Undisturbed (length : Nat) (c : Core) : Prop where
  clearing : c.globals.Untouched clearName
  closed : ∀ text ∈ c.splices length, Closed text

theorem Core.Undisturbed.of_steps (h : Core.Steps floor least c c')
    (hafter : c'.Undisturbed length) :
    c.Undisturbed length where
  clearing := h.untouched hafter.clearing
  closed text hmem := hafter.closed text (mem_splices.2 (h.mem_recent (mem_splices.1 hmem)))

/-! ## The invariant -/

/-- No slot is deeper than a depth, and the marker of that depth is in sight as long as its slot is
pending. -/
structure Guarded (depth : Nat) (p : Pending DeferredBlock) (text : List Char) : Prop where
  deeper : ∀ k, depth < k → p.dispatchAt? k = none
  marked : p.dispatchAt? depth ≠ none → Sighted depth text

namespace Guarded

variable {p q : Pending DeferredBlock} {text : List Char}

/-- Slots may go. -/
theorem of_slots (h : Guarded depth p text)
    (hslots : ∀ {k fn}, depth ≤ k → q.dispatchAt? k = some fn → p.dispatchAt? k = some fn) :
    Guarded depth q text := by
  refine ⟨fun k hk => ?_, fun hslot => ?_⟩
  · cases hq : q.dispatchAt? k with
    | none => rfl
    | some fn =>
        have hp := hslots (by omega) hq
        rw [h.deeper k hk] at hp
        cases hp
  · obtain ⟨fn, hq⟩ := Option.ne_none_iff_exists'.1 hslot
    exact h.marked (by simp [hslots (Nat.le_refl _) hq])

/-- The marker may be nearer in another text. -/
theorem of_text {text' : List Char} (h : Guarded depth p text)
    (htext : p.dispatchAt? depth ≠ none → Sighted depth text → Sighted depth text') :
    Guarded depth p text' :=
  ⟨h.deeper, fun hslot => htext hslot (h.marked hslot)⟩

end Guarded

/-- The text ahead of the cursor of the innermost unit, while one of its blocks runs. -/
def State.ahead (s : State) : List Char := (s.bufferOr default).after

theorem State.Alike.ahead (h : s.Alike t) : t.ahead = s.ahead := by
  have hunits : t.units = s.units := congrArg Seen.units h
  rw [State.ahead, State.ahead, State.bufferOr, State.bufferOr, hunits]

/-- A state of code at some depth, with markers ahead unless something has come between. -/
structure Marked (length depth : Nat) (s : State) : Prop where
  depth_eq : s.depth = depth
  reachable : Reachable s
  begun : length ≤ s.history.length
  guarded : s.core.Undisturbed length → Guarded depth s.deferral.pending s.ahead

namespace Marked

/-- What code does keeps the invariant if it keeps slots and text guarded. -/
theorem within (h : Marked length depth s) (hwithin : Within s t)
    (hguarded : t.core.Undisturbed length → Guarded depth s.deferral.pending s.ahead →
      Guarded depth t.deferral.pending t.ahead) : Marked length depth t where
  depth_eq := hwithin.depth.trans h.depth_eq
  reachable := h.reachable.within hwithin
  begun := Nat.le_trans h.begun hwithin.core.suffix.length_le
  guarded hundisturbed := hguarded hundisturbed (h.guarded (.of_steps hwithin.core hundisturbed))

theorem stable : Stable (Marked length depth) where
  alike h halike := by
    refine h.within halike.within fun _ hguarded => ?_
    have hdeferral := congrArg Seen.deferral halike
    have hpending := congrArg Deferral.pending hdeferral
    rw [halike.ahead]
    exact hguarded.of_slots fun _ hslot => hpending ▸ hslot

theorem write (h : Marked length depth s) (cell : CellRef) (value : Value) :
    Marked length depth { s with globals := s.globals.set cell value } :=
  h.within ⟨rfl, rfl, .refl _, .single (.set _ cell value)⟩ fun _ hguarded => hguarded

theorem defer (callable : Value) (after : Bool) :
    Keeps (Marked length depth) (defer callable after) := by
  intro s hs
  rcases defer_cases callable after s with ⟨fault, h, _⟩ | ⟨hook, t, hput, h, _⟩ <;> rw [h]
  · exact hs
  have hwithin := hput.within
  refine hs.within hwithin fun _ hguarded => ?_
  cases hput with
  | joined fn hdepth hslot =>
      refine hguarded.of_slots fun _ hq => ?_
      simp only [State.record, Pending.add_join hook hdepth hslot] at hq
      exact hq
  | @opened t hdepth hslot hinjected =>
      obtain ⟨unit, outer, warnings, hunits, _, rfl⟩ := hinjected
      have hat := Pending.dispatchAt?_add_open hook hdepth hslot
      refine ⟨fun k hk => ?_, fun _ => ?_⟩
      · have hne : k ≠ s.depth := by
          have := hs.depth_eq
          omega
        simp only [State.record, hat, if_neg hne]
        exact hguarded.deeper k hk
      · -- the text that was spliced in holds the marker
        rw [← hs.depth_eq]
        exact Sighted.insert_fragment unit.buffer s.deferral.mode s.depth

theorem splice (text : String) : Keeps (Marked length depth) (lexStuff text) := by
  intro s hs
  have hkeeps := lexStuff_within (s := s) text s (.refl s)
  rcases lexStuff_cases text s with ⟨e, h⟩ | ⟨t, hinjected, h⟩ <;> rw [h] at hkeeps ⊢
  · exact hs
  obtain ⟨unit, outer, warnings, hunits, _, rfl⟩ := hinjected
  refine hs.within hkeeps fun hundisturbed hguarded => hguarded.of_text fun hslot hsighted => ?_
  have hpending : s.deferral.pending.hasSlot s.depth = true := by
    rw [hs.depth_eq, Pending.hasSlot]
    exact Option.isSome_iff_ne_none.2 hslot
  have hclosed : Closed text := by
    refine hundisturbed.closed text (Core.mem_splices.2 ?_)
    rw [Core.recent_cons (c := s.core) rfl hs.begun, ← hpending]
    exact List.mem_cons_self
  rw [State.ahead, State.bufferOr, hunits] at hsighted
  exact hsighted.insert hclosed s.deferral.mode

theorem clear (cleared : Nat) : Keeps (Marked length depth) (clearDepth cleared) := by
  intro s hs
  have hkeeps := clearDepth_within (s := s) cleared s (.refl s)
  rcases clearDepth_cases cleared s with ⟨e, h⟩ | ⟨fn, hslot, h⟩ <;> rw [h] at hkeeps ⊢
  · exact hs
  refine hs.within hkeeps fun _ hguarded => hguarded.of_slots fun {k fn} _ hq => ?_
  have hclear := Pending.dispatchAt?_clear s.deferral.pending cleared k
  rw [show (s.cleared cleared).deferral.pending = (s.deferral.pending.clear cleared).2 from rfl,
    hclear] at hq
  split at hq
  · cases hq
  · exact hq

end Marked

/-! ## Parsing -/

/-- A state of the host while it parses a text, with the marker of the depth of its blocks ahead. -/
structure Parsing (length : Nat) (s : State) (b : Buffer) (t : State) : Prop where
  hosting : Hosting s t
  begun : length ≤ t.history.length
  guarded : t.core.Undisturbed length → Guarded (s.depth + 1) t.deferral.pending b.after

namespace Parsing

variable {b b' : Buffer}

/-- What the host does keeps the invariant if it leaves slots and text as they are. -/
theorem step (h : Parsing length s b t) (hu : Hosting s u) (hstep : Core.Steps 0 0 t.core u.core)
    (hpending : u.deferral.pending = t.deferral.pending) : Parsing length s b u where
  hosting := hu
  begun := Nat.le_trans h.begun hstep.suffix.length_le
  guarded hundisturbed := hpending ▸ h.guarded (.of_steps hstep hundisturbed)

/-- Behind a token that does not start a block, markers are ahead as before. -/
theorem advance (h : Parsing length s b t) (hkind : b.found.token.kind ≠ .kwBegin) :
    Parsing length s b.next.2 t where
  hosting := h.hosting
  begun := h.begun
  guarded hundisturbed := (h.guarded hundisturbed).of_text fun _ hsighted => hsighted.advance hkind

variable {bound rounds : Nat}

/-- What is ahead of the innermost unit is the text that its parser is given back. -/
theorem sighted_bufferOr (b : Buffer) (h : Sighted depth s.ahead) :
    Sighted depth (s.bufferOr b).after := by
  cases hunits : s.units with
  | nil =>
      -- where there is no unit, no text is ahead
      have hnone : s.ahead = [] := by
        rw [State.ahead, State.bufferOr, hunits]
        rfl
      rw [hnone] at h
      exact h.not_nil.elim
  | cons unit outer =>
      rw [State.ahead, State.bufferOr, hunits] at h
      rw [State.bufferOr, hunits]
      exact h

/-- A `begin` block keeps markers ahead of its parser if code one deeper does. -/
theorem runBegin (hs : Reachable s)
    (hnested : ∀ depth {α : Type} (work : Work α), Keeps (Marked length depth) (run bound work))
    (left : Nat) (body : Block) (span : Span) :
    Yields (fun p => Parsing length s p.1 p.2) ((host bound (run bound)).runBegin left body span)
      fun _ p => Parsing length s p.1 p.2 := by
  rintro ⟨b, t⟩ ht
  let start : State := { t.withBuffer b with
    depth := t.depth + 1, nesting := t.nesting + (bound - left) }
  obtain ⟨unit, hunits⟩ := ht.hosting.units
  have hreachable : Reachable t := hs.hosting ht.hosting
  have hstart : Marked length (s.depth + 1) start := by
    refine ⟨congrArg (· + 1) ht.hosting.depth, hreachable, ht.begun, fun hundisturbed => ?_⟩
    have hahead : start.ahead = b.after := by
      simp only [State.ahead, State.bufferOr, start, State.withBuffer]
      rw [hunits]
      rfl
    rw [hahead]
    exact ht.guarded hundisturbed
  let After (b : Buffer) (u : State) : Prop := length ≤ u.history.length ∧
    (u.core.Undisturbed length → Guarded (s.depth + 1) u.deferral.pending b.after)
  -- what is ahead of the unit when the block ends is what the parser gets to read
  have hleave : ∀ u : State, Marked length (s.depth + 1) u → After (u.bufferOr b) u := by
    intro u hu
    refine ⟨hu.begun, fun hundisturbed => (hu.guarded hundisturbed).of_text fun _ hsighted => ?_⟩
    exact sighted_bufferOr b hsighted
  have hblock : Triple (· = (b, t)) ((host bound (run bound)).runBegin left body span)
      (fun _ p => After p.1 p.2) (fun _ p => After p.1 p.2) :=
    runBegin_keeps Marked.stable (hnested (s.depth + 1) (.block body)) hstart hleave
  have hmarked := hblock (b, t) rfl
  have hhosting := run_begin bound left body span ht.hosting (b, t) rfl
  cases hrun : (host bound (run bound)).runBegin left body span (b, t) with
  | value a p =>
      rw [hrun] at hmarked hhosting
      exact ⟨hhosting.1, hmarked.1, hmarked.2⟩
  | error e p => trivial
  | cutOff => trivial

/-- The block of the marker itself clears the slot, unless something has come between. -/
theorem runBegin_marker (hs : Reachable s) (ht : Parsing length s b t) {buffer : Buffer}
    {left : Nat} {span span' : Span} {e : Expr}
    (he : Parser.Names (t.globals.cell clearName) (s.depth + 1) e) :
    Yields (· = (buffer, { t with globals := t.globals.ensure clearName }))
      ((host bound (run bound)).runBegin left (.mk span [.expr e]) span')
      fun _ p => Parsing length s p.1 p.2 := by
  let asked : State := { t with globals := t.globals.ensure clearName }
  have hasked : Hosting s asked := ht.hosting.ensures clearName
  rintro _ rfl
  have hbegin := run_begin bound left (.mk span [.expr e]) span' hasked (buffer, asked) rfl
  cases hrun : (host bound (run bound)).runBegin left (.mk span [.expr e]) span'
      (buffer, asked) with
  | error e p => trivial
  | cutOff => trivial
  | value a p =>
      rw [hrun] at hbegin
      obtain ⟨hhosting, hsteps⟩ := hbegin
      refine ⟨hhosting, Nat.le_trans ht.begun hsteps.suffix.length_le, fun hundisturbed => ?_⟩
      have hbefore : t.core.Undisturbed length :=
        .of_steps (.trans (.single (.ensure t.core clearName)) hsteps) hundisturbed
      -- the name of the clearing sub means the native one, and has a cell already
      have hsound : t.core.Sound := (hs.hosting ht.hosting).sound
      obtain ⟨hcell, hensure⟩ := Globals.cell_of_lookup? (hsound.clearing hbefore.clearing)
      have hasked : asked = t := by
        rw [show asked = { t with globals := t.globals.ensure clearName } from rfl]
        exact congrArg (fun g => { t with globals := g }) hensure
      rw [hasked] at hrun
      obtain ⟨_, _, halike⟩ := (runBegin_clear he hcell bound left buffer span span').value rfl hrun
      have hpending : p.2.deferral.pending = (t.deferral.pending.clear (s.depth + 1)).2 :=
        congrArg (fun seen => seen.deferral.pending) halike
      have hat : ∀ k, p.2.deferral.pending.dispatchAt? k =
          if k = s.depth + 1 then none else t.deferral.pending.dispatchAt? k := by
        intro k
        rw [hpending]
        exact Pending.dispatchAt?_clear t.deferral.pending (s.depth + 1) k
      refine ⟨fun k hk => ?_, fun hslot => ?_⟩
      · rw [hat, if_neg (by omega)]
        exact (ht.guarded hbefore).deeper k hk
      · rw [hat, if_pos rfl] at hslot
        exact absurd rfl hslot

/-- Where the marker itself is next, it is parsed and run, and the slot is gone. -/
theorem beginStmt_marker (hs : Reachable s) {p : Parser.State State}
    (hp : Parsing length s p.buffer p.host) (hplain : Parser.Plain p.scopes) {rest : List Char}
    (hskip : Scan.skip p.buffer.after = (clearFragment (s.depth + 1)).toList ++ rest) :
    Yields (· = p) (Parser.beginStmt (host bound (run bound)) rounds
      (Parser.run (host bound (run bound)) rounds)) fun _ => Parser.Holds (Parsing length s) := by
  rintro q rfl
  have hreads : Scan.Reads q.buffer.after (clearKinds (s.depth + 1)) rest :=
    .of_skip (hskip.trans (skip_clearFragment _ _).symm) (reads_clearFragment _ _)
  have hbegin : Yields (Parser.At (clearKinds (s.depth + 1)) rest q.scopes q.host)
      (Parser.beginStmt (host bound (run bound)) rounds
        (Parser.run (host bound (run bound)) rounds))
      fun _ p => p.scopes = q.scopes ∧ Parsing length s p.buffer p.host :=
    Parser.beginStmt_clear hplain _ fun buffer span e span' _ he => runBegin_marker hs hp he
  exact (hbegin.weaken (fun _ => id) (fun _ _ h => ⟨h.1 ▸ hplain, h.2⟩) (fun _ _ => id)) q
    ⟨hreads, rfl, rfl⟩

/-- A `begin` block keeps markers ahead, be it a marker or not. -/
theorem beginStmt (hs : Reachable s)
    (hnested : ∀ depth {α : Type} (work : Work α), Keeps (Marked length depth) (run bound work))
    (hblock : Yields (Parser.Holds (Parsing length s))
      (Parser.run (host bound (run bound)) rounds (.block .beginBlock))
      fun _ => Parser.Holds (Parsing length s)) :
    Yields (Parser.Holds (Parsing length s)) (Parser.beginStmt (host bound (run bound)) rounds
      (Parser.run (host bound (run bound)) rounds)) fun _ => Parser.Holds (Parsing length s) := by
  intro p hp
  -- past its keyword, the marker itself is no longer ahead, but its block has yet to run
  by_cases hmarker : ∃ rest,
      Scan.skip p.buffer.after = (clearFragment (s.depth + 1)).toList ++ rest
  · obtain ⟨rest, hskip⟩ := hmarker
    exact beginStmt_marker hs hp.keeps hp.plain hskip p rfl
  · have hadvance : Yields (· = p) Parser.advance fun _ => Parser.Holds (Parsing length s) := by
      rintro q rfl
      refine ⟨hp.plain, hp.keeps.hosting, hp.keeps.begun, fun hundisturbed => ?_⟩
      refine (hp.keeps.guarded hundisturbed).of_text fun _ hsighted => ?_
      rcases hsighted.next with hhere | hbehind
      · exact absurd hhere hmarker
      · exact hbehind
    exact Triple.bind hadvance (fun _ => Triple.bind hblock fun body =>
      Parser.runBegin_holds (E := fun _ _ => True) (runBegin hs hnested rounds body _)) p rfl

/-- The parser keeps markers ahead, up to the end of the text. -/
theorem runUnit (hs : Reachable s)
    (hnested : ∀ depth {α : Type} (work : Work α), Keeps (Marked length depth) (run bound work)) :
    Yields (Parser.Holds (Parsing length s)) (Parser.runUnit (host bound (run bound)) bound)
      fun _ p => Parsing length s p.buffer p.host ∧ p.buffer.found.token.kind = .endOfInput := by
  have hrespects : ∀ rounds, (∀ {α : Type} (goal : Parser.Goal α),
      Yields (Parser.Before (Parsing length s) goal)
        (Parser.run (host bound (run bound)) rounds goal)
        fun _ => Parser.Holds (Parsing length s)) →
      Parser.Respects (host bound (run bound)) rounds (Parser.run (host bound (run bound)) rounds)
        (Parsing length s) (fun _ _ => True) := by
    intro rounds ih
    exact {
      nested := ih
      weak := fun _ => trivial
      looks := fun hp => ⟨hp.hosting, hp.begun, hp.guarded⟩
      advances := fun hp hkind => hp.advance hkind.1
      resolves := fun {b t} name hp => hp.step (hp.hosting.ensures name)
        (.single (.ensure t.core name)) rfl
      installs := fun {b t} name function hp => hp.step (hp.hosting.installs name function)
        (.tail (.single (.ensure t.core name)) (.set _ _ _)) rfl
      begins := (beginStmt hs hnested (ih (.block .beginBlock))).weaken (fun _ hp => hp.1)
        (fun _ _ => id) (fun _ _ => id) }
  exact (Parser.runUnit_keeps (E := fun _ _ => True) hrespects bound).weaken (fun _ => id)
    (fun _ _ hp => ⟨hp.1.keeps, hp.2⟩) (fun _ _ => id)

/-- Where all of a text has been parsed, no slot of its depth or a deeper one is pending. -/
theorem finished (h : Parsing length s b t) (hend : b.found.token.kind = .endOfInput)
    (hundisturbed : t.core.Undisturbed length) {k : Nat} (hk : s.depth < k) :
    t.deferral.pending.dispatchAt? k = none := by
  have hguarded := h.guarded hundisturbed
  rcases Nat.lt_or_eq_of_le (show s.depth + 1 ≤ k from hk) with hdeeper | rfl
  · exact hguarded.deeper k hdeeper
  · -- a slot of this depth would have its marker ahead, but at the end nothing is ahead
    by_cases hslot : t.deferral.pending.dispatchAt? (s.depth + 1) = none
    · exact hslot
    · exact absurd hend (hguarded.marked hslot).kind_ne_end

end Parsing

/-! ## Constructing and running -/

variable {bound : Nat} (name : String) (origin : UnitOrigin) (path : Option String)
  (source : String)

/-- Whether a construction succeeds or not, it leaves no slot deeper than where it started. -/
theorem construct_deeper (hs : Reachable s) (hbegun : length ≤ s.history.length)
    (hnested : ∀ depth {α : Type} (work : Work α), Keeps (Marked length depth) (run bound work))
    (hnone : s.core.Undisturbed length →
      ∀ k, s.depth < k → s.deferral.pending.dispatchAt? k = none) :
    Triple (· = s) (construct bound (run bound) name origin path source)
      (fun _ t => t.core.Undisturbed length →
        ∀ k, s.depth < k → t.deferral.pending.dispatchAt? k = none)
      (fun _ t => ∀ k, s.depth < k → t.deferral.pending.dispatchAt? k = none) := by
  intro s' hs'
  obtain rfl : s = s' := hs'.symm
  cases hrun : construct bound (run bound) name origin path source s with
  | cutOff => trivial
  | error e t =>
      obtain ⟨e', p, _, rfl⟩ := construct_error hrun
      intro k hk
      rw [dispatchAt?_unwindTo, if_neg (by omega)]
  | value unit t =>
      obtain ⟨body, p, hparse, rfl⟩ := construct_value hrun
      have hstart : Parsing length s (.ofString source) (s.enterUnit name origin path source) := by
        refine ⟨Hosting.enter s name origin path source, hbegun, fun hundisturbed => ?_⟩
        have hslots := hnone hundisturbed
        refine ⟨fun k hk => hslots k (by omega), fun hslot => ?_⟩
        exact absurd (hslots (s.depth + 1) (Nat.lt_succ_self _)) hslot
      obtain ⟨hend, hkind⟩ := (Parsing.runUnit hs hnested).value
        (s := .start source (s.enterUnit name origin path source)) ⟨Parser.Plain.nil, hstart⟩ hparse
      exact fun hundisturbed k hk => hend.finished hkind hundisturbed hk

namespace Marked

theorem construct
    (hnested : ∀ depth {α : Type} (work : Work α), Keeps (Marked length depth) (run bound work)) :
    Keeps (Marked length depth) (construct bound (run bound) name origin path source) := by
  intro s hs
  have haround := run_construct bound s name origin path source s rfl
  have hdeeper := construct_deeper name origin path source hs.reachable hs.begun hnested
    (fun hundisturbed k hk => (hs.guarded hundisturbed).deeper k (hs.depth_eq ▸ hk)) s rfl
  have hkept : ∀ t, Around s t → (t.core.Undisturbed length →
      ∀ k, s.depth < k → t.deferral.pending.dispatchAt? k = none) → Marked length depth t := by
    intro t haround hdeeper
    refine hs.within haround.within fun hundisturbed hguarded => ⟨fun k hk => ?_, fun hslot => ?_⟩
    · exact hdeeper hundisturbed k (hs.depth_eq ▸ hk)
    · -- the slot was pending before, and its marker is where it was
      obtain ⟨fn, hfn⟩ := Option.ne_none_iff_exists'.1 hslot
      have hahead : t.ahead = s.ahead := by
        rw [State.ahead, State.ahead, State.bufferOr, State.bufferOr, haround.units]
      rw [hahead]
      refine hguarded.marked ?_
      rcases haround.core.slot_cases hfn with hbefore | ⟨hfloor, _⟩
      · exact Option.ne_none_iff_exists'.2 ⟨fn, hbefore⟩
      · have := hs.depth_eq
        omega
  cases hrun : Interpreter.construct bound (run bound) name origin path source s with
  | cutOff => trivial
  | value unit t =>
      rw [hrun] at haround hdeeper
      exact hkept t haround hdeeper
  | error e t =>
      rw [hrun] at haround hdeeper
      exact hkept t haround fun _ => hdeeper

/-- Code keeps the invariant of its depth. -/
theorem run (bound : Nat) (length depth : Nat) (work : Work α) :
    Keeps (Marked length depth) (Interpreter.run bound work) := by
  refine run_keeps (I := Marked length) (fun bound hnested depth => ?_) bound depth work
  exact {
    toStable := stable
    nested := hnested depth
    write := fun cell value hs => hs.write cell value
    defer := Marked.defer
    splice := Marked.splice
    clear := Marked.clear
    construct := fun name origin path source => Marked.construct name origin path source hnested }

end Marked

end TwoPhase.Interpreter
