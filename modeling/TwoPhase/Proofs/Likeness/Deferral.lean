import TwoPhase.Interpreter.Construct
import TwoPhase.Proofs.Interpreter.Deferral
import TwoPhase.Proofs.Likeness.Entering

/-!
# Deferral side by side

Putting a hook off, splicing text in and clearing a depth do what is alike in both runs.  Where the
first run is in line mode, a splice that draws a warning makes it loud, and so does text spliced in
by hand, of which nothing is known.
-/

namespace TwoPhase

instance : HasLike HookError := .ofEq
instance : HasLike Pending.Added := .ofEq

namespace Interpreter

open Run (Sim)

variable {K : Comparison} {s t : State}

/-! ## Splicing -/

/-- The warning that a splice draws. -/
def spliceWarning? (buffer : Buffer) (mode : InjectionMode) (text : String) : Option Diagnostic :=
  match mode with
  | .precise => none
  | .line => (buffer.insertNextLine text).1.warning

/-- The warnings after a splice into a unit. -/
def warningsAfter (warnings : Array UnitWarning) (unit : Construction) (mode : InjectionMode)
    (text : String) : Array UnitWarning :=
  match spliceWarning? unit.buffer mode text with
  | none => warnings
  | some d => warnings.push ⟨unit.id, d.withNote s!"in unit `{unit.name}`"⟩

/-- What a splice into a unit does. -/
theorem inject_eq {unit : Construction} {outer : List Construction}
    (hunits : s.units = unit :: outer) (horigin : unit.origin ≠ .stringEval)
    (mode : InjectionMode) (text : String) :
    State.inject mode text s = (.ok (), { s with
      units := { unit with buffer := unit.buffer.insert mode text } :: outer
      warnings := warningsAfter s.warnings unit mode text }) := by
  cases mode with
  | precise =>
      simp [State.inject, hunits, horigin, Buffer.insert, Buffer.insertAtCursor, warningsAfter,
        spliceWarning?]
  | line =>
      cases hwarning : (unit.buffer.insertNextLine text).1.warning <;>
        simp [State.inject, hunits, horigin, Buffer.insert, hwarning, State.warn, warningsAfter,
          spliceWarning?]

/-- Where nothing can be spliced in, nothing is. -/
theorem inject_refused (h : ∀ unit outer, s.units = unit :: outer → unit.origin = .stringEval)
    (mode : InjectionMode) (text : String) :
    State.inject mode text s
      = (.error (if s.units.isEmpty then .noUnit else .stringEval), s) := by
  unfold State.inject
  cases hunits : s.units with
  | nil => rfl
  | cons unit outer =>
      dsimp only
      rw [if_pos (h unit outer hunits)]
      rfl

/-- Either nothing can be spliced in, or there is a unit that takes text. -/
theorem splices_into (s : State) :
    (∀ unit outer, s.units = unit :: outer → unit.origin = .stringEval) ∨
      ∃ unit outer, s.units = unit :: outer ∧ unit.origin ≠ .stringEval := by
  cases hunits : s.units with
  | nil => exact .inl fun _ _ h => by cases h
  | cons unit outer =>
      by_cases horigin : unit.origin = .stringEval
      · exact .inl fun _ _ h => by cases h; exact horigin
      · exact .inr ⟨unit, outer, rfl, horigin⟩

/-- Every warning is about code that is left on a line. -/
theorem code_of_spliceWarning? {buffer : Buffer} {mode : InjectionMode} {text : String}
    {d : Diagnostic} (h : spliceWarning? buffer mode text = some d) :
    d.code = .extraTextBeforeInjection := by
  cases mode with
  | precise => cases h
  | line =>
      obtain ⟨span, _, rfl⟩ := Option.map_eq_some_iff.1 h
      rfl

/-- A splice gives one warning of line mode or none at all. -/
theorem warningsAfter_cases (warnings : Array UnitWarning) (unit : Construction)
    (mode : InjectionMode) (text : String) :
    spliceWarning? unit.buffer mode text = none ∧
        warningsAfter warnings unit mode text = warnings ∨
      (∃ d, spliceWarning? unit.buffer mode text = some d) ∧
        lineWarnings (warningsAfter warnings unit mode text) = lineWarnings warnings + 1 := by
  unfold warningsAfter
  cases hwarning : spliceWarning? unit.buffer mode text with
  | none => exact .inl ⟨rfl, rfl⟩
  | some d =>
      refine .inr ⟨⟨d, rfl⟩, ?_⟩
      have hcode : ((d.withNote s!"in unit `{unit.name}`").code
          == Code.extraTextBeforeInjection) = true := by
        simp [Diagnostic.withNote, code_of_spliceWarning? hwarning]
      simp only [lineWarnings, Array.toList_push, List.countP_append, List.countP_singleton,
        hcode, if_true]

/-- What a splice does to the state, as seen in one run. -/
theorem inject_moves (mode : InjectionMode) (text : String) (s : State) :
    Restored s (State.inject mode text s).2 := by
  rcases splices_into s with hnone | ⟨unit, outer, hunits, horigin⟩
  · rw [inject_refused hnone]
    exact .refl s
  · rw [inject_eq hunits horigin]
    have hcases := warningsAfter_cases s.warnings unit mode text
    refine { Restored.refl s with units := ?_, outerUnits := ?_, warned := ?_, unwarned := ?_ }
    · rw [hunits]
      rfl
    · rw [hunits]
      rfl
    · simp only [State.lineWarnings]
      rcases hcases with ⟨_, hsame⟩ | ⟨_, hmore⟩
      · rw [hsame]
      · omega
    · intro hcount
      simp only [State.lineWarnings] at hcount
      rcases hcases with ⟨_, hsame⟩ | ⟨_, hmore⟩
      · exact hsame
      · omega

/-- A splice of text whose words are known does what is alike, unless it draws a warning. -/
theorem inject_like (h : s.Like K t) {m m' : InjectionMode} (hmode : K.exact → m = m')
    (hmodes : ¬K.exact → m = .line ∧ m' = .precise) (depth : Nat) :
    (State.inject m (dispatchFragment depth) s).1 = (State.inject m' (dispatchFragment depth) t).1 ∧
      (¬K.exact ∧ s.lineWarnings < (State.inject m (dispatchFragment depth) s).2.lineWarnings ∨
        (State.inject m (dispatchFragment depth) s).2.Like K
          (State.inject m' (dispatchFragment depth) t).2) := by
  rcases forall₂_cases h.units with ⟨hs, ht⟩ | ⟨unit, outer, unit', outer', hs, ht, hunit, houter⟩
  · have hnone : ∀ {u : State}, u.units = [] → ∀ unit outer, u.units = unit :: outer →
        unit.origin = .stringEval := by
      intro u hu unit outer hunits
      rw [hu] at hunits
      cases hunits
    rw [inject_refused (hnone hs), inject_refused (hnone ht), hs, ht]
    exact ⟨rfl, .inr h⟩
  by_cases horigin : unit.origin = .stringEval
  · have horigin' : unit'.origin = .stringEval := hunit.origin ▸ horigin
    rw [inject_refused (by rw [hs]; rintro _ _ ⟨⟩; exact horigin),
      inject_refused (by rw [ht]; rintro _ _ ⟨⟩; exact horigin'), hs, ht]
    exact ⟨rfl, .inr h⟩
  have horigin' : unit'.origin ≠ .stringEval := hunit.origin ▸ horigin
  rw [inject_eq hs horigin, inject_eq ht horigin']
  refine ⟨rfl, ?_⟩
  by_cases hexact : K.exact
  · obtain rfl : unit = unit' := hunit.eq hexact
    obtain rfl : m = m' := hmode hexact
    refine .inr { h with units := .cons (like_refl K _) houter, warnings := ?_ }
    simp only [h.warnings]
  -- line mode beside precise mode: the words are the same unless line mode gives a warning
  obtain ⟨rfl, rfl⟩ := hmodes hexact
  rcases warningsAfter_cases s.warnings unit .line (dispatchFragment depth) with
    ⟨hwarning, hsame⟩ | ⟨_, hmore⟩
  · have hbuffer : (unit.buffer.insert .line (dispatchFragment depth)).Like K
        (unit'.buffer.insert .precise (dispatchFragment depth)) := by
      refine ⟨?_, fun h => absurd h hexact⟩
      exact (unit.buffer.words_insertNextLine depth hwarning).trans
        (hunit.buffer.words ▸ (unit'.buffer.words_insertAtCursor depth).symm)
    refine .inr { h with units := .cons { hunit with buffer := hbuffer } houter, warnings := ?_ }
    exact hsame.trans h.warnings
  · refine .inl ⟨hexact, ?_⟩
    simp only [State.lineWarnings]
    omega

/-! ## Putting off -/

/-- The dispatch name bound to a function, or to nothing. -/
theorem bindDispatch_like (h : s.Like K t) (fn : DispatchFn) :
    (s.bindDispatch fn).Like K (t.bindDispatch fn) :=
  { h with globals := h.globals.replace dispatchName (.same _) }

theorem unbindDispatchTo_like (h : s.Like K t) (parent : Option DispatchFn) :
    (s.unbindDispatchTo parent).Like K (t.unbindDispatchTo parent) := by
  cases parent with
  | none => exact { h with globals := h.globals.remove dispatchName }
  | some fn => exact bindDispatch_like h fn

/-- Pending hooks that are alike, in the modes that go side by side. -/
structure Deferral.Alike (K : Comparison) (d d' : Deferral DeferredBlock) : Prop where
  pending : d.pending.Like K d'.pending
  mode : K.exact → d.mode = d'.mode
  modes : ¬K.exact → d.mode = .line ∧ d'.mode = .precise

theorem inStringEval_like (h : s.Like K t) :
    State.site.inStringEval s = State.site.inStringEval t := by
  change s.units.head?.any _ = t.units.head?.any _
  rcases forall₂_cases h.units with ⟨hs, ht⟩ | ⟨unit, outer, unit', outer', hs, ht, hunit, _⟩ <;>
    rw [hs, ht]
  simp [hunit.origin]

/-- What putting a hook off does where the deferral is out of the state. -/
theorem site_defer_like (h : s.Like K t) {d d' : Deferral DeferredBlock}
    (hd : Deferral.Alike K d d') {hook hook' : Hook DeferredBlock} (hhook : hook.Like K hook') :
    (d.defer State.site hook s).1 = (d'.defer State.site hook' t).1 ∧
      (¬K.exact ∧ s.lineWarnings < (d.defer State.site hook s).2.2.lineWarnings ∨
        Deferral.Alike K (d.defer State.site hook s).2.1 (d'.defer State.site hook' t).2.1 ∧
          (d.defer State.site hook s).2.2.Like K (d'.defer State.site hook' t).2.2) := by
  have hdepth : State.site.depth s = State.site.depth t := h.depth
  have hadd := hd.pending.add (State.site.depth t) hhook
  have hinject := inject_like h hd.mode hd.modes (State.site.depth t)
  unfold Deferral.defer
  dsimp only
  rw [hdepth, inStringEval_like h, hd.pending.hasSlot]
  -- the two guards, and the slot that is pending already, are the same on both sides
  split
  · exact ⟨rfl, .inr ⟨hd, h⟩⟩
  split
  · exact ⟨rfl, .inr ⟨hd, h⟩⟩
  split
  · exact ⟨hadd.1, .inr ⟨{ hd with pending := hadd.2 }, h⟩⟩
  change _ ∧ (_ ∨ _)
  rw [show State.site.inject = State.inject from rfl]
  generalize State.inject d.mode (dispatchFragment (State.site.depth t)) s = first at hinject ⊢
  generalize State.inject d'.mode (dispatchFragment (State.site.depth t)) t = second at hinject ⊢
  obtain ⟨result, u⟩ := first
  obtain ⟨result', v⟩ := second
  obtain ⟨hresult, hstate⟩ := hinject
  obtain rfl : result = result' := hresult
  cases result with
  | error e => exact ⟨rfl, hstate.imp_right fun hlike => ⟨hd, hlike⟩⟩
  | ok =>
      dsimp only at hstate ⊢
      rw [hadd.1]
      refine ⟨rfl, hstate.imp (fun hloud => ⟨hloud.1, ?_⟩)
        fun hlike => ⟨{ hd with pending := hadd.2 }, ?_⟩⟩
      · split
        · exact hloud.2
        · exact hloud.2
      · split
        · exact bindDispatch_like hlike _
        · exact hlike

/-! ## The operations on states -/

theorem site_defer_moves (hook : Hook DeferredBlock) (d : Deferral DeferredBlock) (s : State) :
    (d.defer State.site hook s).2.1.mode = d.mode ∧ Restored s (d.defer State.site hook s).2.2 := by
  have hinject := inject_moves d.mode (dispatchFragment (State.site.depth s)) s
  unfold Deferral.defer
  dsimp only
  split
  · exact ⟨rfl, .refl s⟩
  split
  · exact ⟨rfl, .refl s⟩
  split
  · exact ⟨rfl, .refl s⟩
  rw [show State.site.inject = State.inject from rfl]
  generalize State.inject d.mode (dispatchFragment (State.site.depth s)) s = injected at hinject ⊢
  obtain ⟨result, u⟩ := injected
  cases result with
  | error e => exact ⟨rfl, hinject⟩
  | ok =>
      refine ⟨rfl, ?_⟩
      dsimp only
      split
      · exact { hinject with }
      · exact hinject

/-- An operation on the pending hooks that moves the rest of the state moves the state. -/
theorem withDeferral_moves {α : Type}
    {op : Deferral DeferredBlock → State → α × Deferral DeferredBlock × State}
    (hop : ∀ d s, (op d s).2.1.mode = d.mode ∧ Restored s (op d s).2.2) (s : State) :
    Restored s (s.withDeferral op).2 :=
  { (hop s.deferral { s with deferral := default }).2 with mode := (hop s.deferral _).1 }

theorem Matched.deferral (h : Matched K s t) : Deferral.Alike K s.deferral t.deferral :=
  ⟨h.like.pending, h.like.mode, h.modes⟩

/-- The states without the pending hooks are alike too. -/
theorem Matched.withoutDeferral (h : Matched K s t) :
    State.Like K { s with deferral := default } { t with deferral := default } :=
  { h.like with pending := .refl _, mode := fun _ => rfl }

/-- Operations on the pending hooks that do what is alike do so on states. -/
theorem withDeferral_like {α : Type} {op op' : Deferral DeferredBlock → State →
      α × Deferral DeferredBlock × State}
    {first second : α × Deferral DeferredBlock × State}
    (hfirst : op s.deferral { s with deferral := default } = first)
    (hsecond : op' t.deferral { t with deferral := default } = second)
    (hdeferral : Deferral.Alike K first.2.1 second.2.1) (hlike : first.2.2.Like K second.2.2) :
    (s.withDeferral op).2.Like K (t.withDeferral op').2 := by
  simp only [State.withDeferral, hfirst, hsecond]
  exact { hlike with pending := hdeferral.pending, mode := hdeferral.mode }

theorem Restored.record (h : Restored s t) (event : Event) : Restored s (t.record event) :=
  { h with spliced := Nat.le_trans h.spliced (List.sublist_cons_self _ _).countP_le }

namespace Alike

theorem record {e f : State → Event} (h : ∀ {s t}, s.Like K t → (e s).Like K (f t)) :
    Alike K (modify fun s => s.record (e s)) (modify fun s => s.record (f s)) := by
  refine Sim.update (fun s => (Restored.refl s).record _) fun {s t} hs _ => .inr ?_
  have hlike : (s.record (e s)).Like K (t.record (f t)) :=
    { hs.like with history := .cons (h hs.like) hs.like.history }
  refine { hs with like := hlike, spliced := ?_ }
  exact Nat.le_trans hs.spliced (List.sublist_cons_self _ _).countP_le

theorem orRaise {α : Type} [HasLike α] (result : Except Fault α) :
    Alike K (Interpreter.orRaise result) (Interpreter.orRaise result) := by
  cases result with
  | ok a => exact .pure (like_refl K a)
  | error fault => exact raise_self fault

theorem unitName (h : s.Like K t) : s.unitName = t.unitName := by
  unfold State.unitName
  rcases forall₂_cases h.units with ⟨hs, ht⟩ | ⟨unit, outer, unit', outer', hs, ht, hunit, _⟩ <;>
    rw [hs, ht]
  · exact h.mainUnit
  · exact hunit.name

/-- Hooks are put off alike while the deferral is out of the state. -/
theorem add {hook hook' : Hook DeferredBlock} (h : hook.Like K hook') :
    Alike K (modifyGet (·.withDeferral (·.defer State.site hook)))
      (modifyGet (·.withDeferral (·.defer State.site hook'))) := by
  refine Sim.modifyGet (withDeferral_moves (site_defer_moves _)) fun {s t} hs _ => ?_
  have hmoves := withDeferral_moves (site_defer_moves hook) s
  have hmoves' := withDeferral_moves (site_defer_moves hook') t
  obtain ⟨hresult, ⟨hexact, hwarned⟩ | ⟨hdeferral, hlike⟩⟩ :=
    site_defer_like hs.withoutDeferral hs.deferral h
  · exact .inl (.inl ⟨hexact, .inl (Nat.lt_of_le_of_lt hs.warned hwarned)⟩)
  · refine .inr ⟨?_, hs.moves hmoves hmoves' ?_⟩
    · rw [State.withDeferral, State.withDeferral, hresult]
      exact like_refl K _
    · exact withDeferral_like rfl rfl hdeferral hlike

/-- Putting callables off that are alike. -/
theorem defer {v w : Value} (h : v.Like K w) (after : Bool) :
    Alike K (Interpreter.defer v after) (Interpreter.defer w after) := by
  unfold Interpreter.defer
  rw [h.isCallable, h.typeName]
  cases w.isCallable with
  | false => exact raise_self (α := Unit) _
  | true =>
      refine Sim.get fun s t hs => ?_
      have hblock : DeferredBlock.Like K ⟨v, hookLabel s after⟩ ⟨w, hookLabel t after⟩ :=
        ⟨h, by simp only [hookLabel, unitName hs]⟩
      have hhook : Hook.Like K
          (if after then .afterRuntime ⟨v, hookLabel s after⟩
            else .atRuntime ⟨v, hookLabel s after⟩)
          (if after then .afterRuntime ⟨w, hookLabel t after⟩
            else .atRuntime ⟨w, hookLabel t after⟩) := by
        split
        · exact .afterRuntime hblock
        · exact .atRuntime hblock
      refine (add hhook).bind fun result result' hresult => ?_
      obtain rfl : result = result' := eq_of_except id id hresult
      refine (orRaise _).bind fun _ _ _ => record fun hs => ?_
      rw [hs.depth]
      exact .deferred _ hhook

/-! ## Clearing -/

theorem clear_like (h : s.Like K t) {d d' : Deferral DeferredBlock} (hd : Deferral.Alike K d d')
    (depth : Nat) :
    (d.clear State.site depth s).1 = (d'.clear State.site depth t).1 ∧
      Deferral.Alike K (d.clear State.site depth s).2.1 (d'.clear State.site depth t).2.1 ∧
      (d.clear State.site depth s).2.2.Like K (d'.clear State.site depth t).2.2 := by
  obtain ⟨hresult, hpending⟩ := hd.pending.clear depth
  unfold Deferral.clear
  generalize d.pending.clear depth = first at hresult hpending ⊢
  generalize d'.pending.clear depth = second at hresult hpending ⊢
  obtain ⟨result, p⟩ := first
  obtain ⟨result', q⟩ := second
  obtain rfl : result = result' := hresult
  cases result with
  | error e => exact ⟨rfl, { hd with pending := hpending }, h⟩
  | ok parent => exact ⟨rfl, { hd with pending := hpending }, unbindDispatchTo_like h parent⟩

theorem unbindDispatchTo_moves (parent : Option DispatchFn) (s : State) :
    Restored s (s.unbindDispatchTo parent) := by
  cases parent with
  | none => exact { Restored.refl s with }
  | some fn => exact { Restored.refl s with }

theorem clear_moves (depth : Nat) (d : Deferral DeferredBlock) (s : State) :
    (d.clear State.site depth s).2.1.mode = d.mode ∧
      Restored s (d.clear State.site depth s).2.2 := by
  unfold Deferral.clear
  generalize d.pending.clear depth = cleared
  obtain ⟨result, p⟩ := cleared
  cases result with
  | error e => exact ⟨rfl, .refl s⟩
  | ok parent => exact ⟨rfl, unbindDispatchTo_moves parent s⟩

theorem orHookFault {α : Type} [HasLike α] (result : Except HookError α) :
    Alike K (Interpreter.orHookFault result) (Interpreter.orHookFault result) :=
  orRaise _

theorem clearDepth (depth : Nat) :
    Alike K (Interpreter.clearDepth depth) (Interpreter.clearDepth depth) := by
  refine Sim.bind (Sim.modifyGet (withDeferral_moves (clear_moves depth)) fun {s t} hs _ => .inr ?_)
    fun result result' hresult => ?_
  · have hmoves := withDeferral_moves (clear_moves depth) s
    have hmoves' := withDeferral_moves (clear_moves depth) t
    obtain ⟨hresult, hdeferral, hlike⟩ := clear_like hs.withoutDeferral hs.deferral depth
    refine ⟨?_, hs.moves hmoves hmoves' (withDeferral_like rfl rfl hdeferral hlike)⟩
    rw [State.withDeferral, State.withDeferral, hresult]
    exact like_refl K _
  · obtain rfl : result = result' := eq_of_except id id hresult
    exact (orHookFault _).bind fun _ _ _ => record fun _ => .same _

/-! ## Splicing by hand -/

theorem lexStuff_apply (text : String) (s : State) : Interpreter.lexStuff text s =
    match State.inject s.deferral.mode text s with
    | (.error e, u) => .error (u.raised (.hook (.inject e))) u
    | (.ok (), u) => .value () (u.record (.spliced text (u.deferral.pending.hasSlot u.depth))) := by
  simp only [Interpreter.lexStuff, Run.bind_apply, Run.get_apply, Deferral.splice,
    show State.site.inject = State.inject from rfl]
  generalize State.inject s.deferral.mode text s = injected
  obtain ⟨result, u⟩ := injected
  cases result <;> rfl

/-- Where spans count, any text is spliced in alike. -/
theorem inject_exact (hexact : K.exact) (h : s.Like K t) (mode : InjectionMode) (text : String) :
    (State.inject mode text s).1 = (State.inject mode text t).1 ∧
      (State.inject mode text s).2.Like K (State.inject mode text t).2 := by
  have hunits : s.units = t.units := eq_of_like hexact h.units
  rcases splices_into s with hnone | ⟨unit, outer, hs, horigin⟩
  · rw [inject_refused hnone, inject_refused (hunits ▸ hnone), hunits]
    exact ⟨rfl, h⟩
  · rw [inject_eq hs horigin, inject_eq (hunits ▸ hs) horigin, h.warnings]
    exact ⟨rfl, { h with units := like_refl K _, warnings := rfl }⟩

/-- Where nothing can be spliced in on one side, nothing can be on the other. -/
theorem refuses_like (h : s.Like K t)
    (hs : ∀ unit outer, s.units = unit :: outer → unit.origin = .stringEval) :
    (∀ unit outer, t.units = unit :: outer → unit.origin = .stringEval) ∧
      s.units.isEmpty = t.units.isEmpty := by
  refine ⟨fun unit outer ht => ?_, forall₂_isEmpty h.units⟩
  rcases forall₂_cases h.units with ⟨_, hnil⟩ | ⟨c, _, d, _, hc, hd, hcd, _⟩
  · rw [hnil] at ht
    cases ht
  · rw [hd] at ht
    cases ht
    exact hcd.origin ▸ hs c _ hc

/-- Text spliced in by hand is the same text in the same place if spans count. -/
theorem lexStuff (text : String) :
    Alike K (Interpreter.lexStuff text) (Interpreter.lexStuff text) := by
  have hmoves : ∀ s, Restored s (State.inject s.deferral.mode text s).2 := fun s =>
    inject_moves _ text s
  have herror : ∀ {u v : State}, u.Like K v → ∀ e,
      EvalError.Like K (u.raised (.hook (.inject e))) (v.raised (.hook (.inject e))) :=
    fun h e => raised h rfl fun _ _ => rfl
  refine ⟨fun s u hu => ?_, fun {s t} hs _ => ?_⟩
  · rw [lexStuff_apply]
    have hu' := hu.trans (hmoves u)
    generalize State.inject u.deferral.mode text u = injected at hu' ⊢
    obtain ⟨result, v⟩ := injected
    cases result with
    | error e => exact hu'
    | ok => exact hu'.record _
  · rw [lexStuff_apply, lexStuff_apply]
    by_cases hexact : K.exact
    · have hinject := inject_exact hexact hs.like s.deferral.mode text
      have hs' := hmoves s
      have ht' := hmoves t
      rw [← hs.like.mode hexact] at ht' ⊢
      generalize State.inject s.deferral.mode text s = first at hinject hs' ⊢
      generalize State.inject s.deferral.mode text t = second at hinject ht' ⊢
      obtain ⟨result, u⟩ := first
      obtain ⟨result', v⟩ := second
      obtain ⟨hresult, hlike⟩ := hinject
      obtain rfl : result = result' := hresult
      have hmatched := hs.moves hs' ht' hlike
      cases result with
      | error e => exact .inr ⟨_, v, rfl, herror hlike e, hmatched⟩
      | ok =>
          refine .inr ⟨_, _, rfl, rfl, { hmatched with like := ?_, spliced := ?_ }⟩
          · refine { hmatched.like with history := .cons ?_ hmatched.like.history }
            rw [hmatched.like.pending.hasSlot, hmatched.like.depth]
            exact .same _
          · exact Nat.le_trans hmatched.spliced (List.sublist_cons_self _ _).countP_le
    · rcases splices_into s with hnone | ⟨unit, outer, hunits, horigin⟩
      · obtain ⟨hnone', hempty⟩ := refuses_like hs.like hnone
        rw [inject_refused hnone, inject_refused hnone', hempty]
        exact .inr ⟨_, t, rfl, herror hs.like _, hs⟩
      · rw [inject_eq hunits horigin]
        -- text spliced in by hand can have other words in line mode, so it counts as loud
        refine .inl (.inl ⟨hexact, .inr ?_⟩)
        simp only [State.splices, State.record, List.countP_cons, Event.isSplice]
        exact Nat.lt_succ_of_le hs.spliced

/-! ## Unwinding -/

theorem unwindTo_moves (depth : Nat) (s : State) : Restored s (s.unwindTo depth) := by
  have hmoves : Restored s (s.withDeferral fun d s => ((), d.unwindTo State.site depth s)).2 := by
    refine withDeferral_moves (fun d s => ?_) s
    simp only [Deferral.unwindTo]
    split
    · exact ⟨trivial, .refl s⟩
    · exact ⟨trivial, unbindDispatchTo_moves _ s⟩
  exact hmoves.record _

theorem unwindTo_like (h : Matched K s t) (depth : Nat) :
    Matched K (s.unwindTo depth) (t.unwindTo depth) := by
  refine h.moves (unwindTo_moves depth s) (unwindTo_moves depth t) ?_
  obtain ⟨hremoved, hpending⟩ := h.like.pending.unwindTo depth
  have hlike := h.withoutDeferral
  simp only [State.unwindTo, State.withDeferral, Deferral.unwindTo, State.record]
  rw [hremoved, hpending.nearest?]
  split
  · exact { h.like with pending := hpending, history := .cons (.same _) h.like.history }
  · have hunbound := unbindDispatchTo_like hlike
      ((t.deferral.pending.unwindTo depth).2.nearest? depth)
    exact { hunbound with
      pending := hpending
      mode := h.like.mode
      history := .cons (.same _) hunbound.history }

end Alike

end Interpreter

end TwoPhase
