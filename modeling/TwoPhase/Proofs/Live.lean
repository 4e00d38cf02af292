import TwoPhase.Proofs.Request
import TwoPhase.Proofs.Parser.Passing

/-!
# Live states

A state is live if a session can be in it while code or a native sub is at work, or between two
requests.  The parser moves units and depth apart for a while, but no code sees that: the depth is
the number of units under construction wherever code starts (`Live.aligned`).

To say where code starts without following the interpreter step by step, its nested parts are looked
at as questions.  A run asks for a part at a state if what becomes of the run can depend on what
becomes of that part there.  The answers range over everything that leaves the stacks as they were,
so they cover native subs of an embedding program, which can do to the stacks only what requests do.
-/

namespace TwoPhase

open Interpreter
open Session (Request)
open Run (Keeps Sim)

variable {σ ε α β : Type} {s t u : State}

/-! ## Questions -/

/-- The state that a run ends in, if it ends. -/
def Run.Outcome.state? : Run.Outcome σ ε α → Option σ
  | .value _ s => some s
  | .error _ s => some s
  | .cutOff => none

namespace Interpreter

/-- A way to run nested parts that leaves what it enters. -/
def Restoring (again : Again) : Prop :=
  ∀ {α : Type} (work : Work α) (s : State), Keeps (Restored s) (again work)

/-- Ways to run nested parts that may differ for one part at one state only. -/
def AgreeBut (work : Work α) (s : State) (again again' : Again) : Prop :=
  ∀ {β : Type} (other : Work β) (t : State), again other t ≠ again' other t →
    (⟨β, other⟩ : Σ γ, Work γ) = ⟨α, work⟩ ∧ t = s

/-- A way to run nested parts, but for one part at one state, which ends in a given way. -/
noncomputable def instead (again : Again) (work : Work α) (u : State)
    (outcome : ∀ {γ : Type}, Run.Outcome State EvalError γ) : Again := fun {γ} other t =>
  have := Classical.propDecidable ((⟨γ, other⟩ : Σ γ, Work γ) = ⟨α, work⟩ ∧ t = u)
  if (⟨γ, other⟩ : Σ γ, Work γ) = ⟨α, work⟩ ∧ t = u then outcome else again other t

section

variable (again : Again) (work : Work α) (u : State)
  (outcome : ∀ {γ : Type}, Run.Outcome State EvalError γ)

theorem instead_self : instead again work u outcome work u = outcome := if_pos ⟨rfl, rfl⟩

theorem agreeBut_instead : AgreeBut work u again (instead again work u outcome) := by
  intro γ other t hne
  by_contra hpart
  exact hne (if_neg hpart).symm

end

/-- What becomes of a run can depend on what becomes of a part at a state. -/
def Asks (body : Again → Run State ε β) (s : State) (work : Work α) (u : State) : Prop :=
  ∃ again again' : Again, Restoring again ∧ Restoring again' ∧ AgreeBut work u again again' ∧
    body again s ≠ body again' s

end Interpreter

/-- States that a session can be in while code or a native sub is at work, or between requests. -/
inductive Live : State → Prop where
  | start (settings : Settings) : Live (Session.start settings)
  /-- A request starts a part. -/
  | requested {s u : State} {α : Type} (h : Live s) (rounds : Nat) (request : Request)
      (work : Work α) (hasks : Asks (fun again => request.runWith rounds again) s work u) : Live u
  /-- A part starts another. -/
  | nested {s u : State} {α β : Type} (h : Live s) (rounds : Nat) (outer : Work β) (work : Work α)
      (hasks : Asks (fun again => perform rounds again outer) s work u) : Live u
  /-- A request ends. -/
  | answered {s t : State} (h : Live s) (rounds : Nat) (request : Request) (again : Again)
      (hagain : Restoring again) (hend : (request.runWith rounds again s).state? = some t) : Live t
  /-- A part ends. -/
  | ended {s t : State} {α : Type} (h : Live s) (rounds : Nat) (work : Work α) (again : Again)
      (hagain : Restoring again) (hend : (perform rounds again work s).state? = some t) : Live t
  | addModule {s : State} (h : Live s) (name source : String) :
      Live (Session.addModule name source s)
  | takeWarnings {s : State} (h : Live s) : Live (Session.takeWarnings s).2
  | takeOutput {s : State} (h : Live s) : Live (Session.takeOutput s).2

namespace Interpreter

/-! ## Answers where depth and units move together -/

/-- What counts where everything counts. -/
abbrev strict : Comparison := .strict True

theorem matched_strict (s : State) : Matched strict s s :=
  ⟨.refl s, fun h => absurd trivial h, fun h => absurd trivial h, Nat.zero_le _, Nat.zero_le _,
    Nat.zero_le _⟩

theorem not_loud_strict (s : State) : ¬Loud strict s := by
  rintro (⟨h, _⟩ | ⟨h, _⟩) <;> exact h trivial

theorem eq_of_evalError {e f : EvalError} (h : Like strict e f) : e = f :=
  EvalError.Like.eq h trivial trivial

/-- Every outcome follows itself. -/
theorem follows_self [HasLike ε] [HasLike α] (o : Run.Outcome State ε α) :
    o.Follows (running strict) o := by
  cases o with
  | value a s => exact .inr ⟨a, s, rfl, like_refl _ a, matched_strict s⟩
  | error e s => exact .inr ⟨e, s, rfl, like_refl _ e, matched_strict s⟩
  | cutOff => trivial

/-- Outcomes that follow each other are the same where everything counts. -/
theorem eq_of_follows [HasLike ε] [HasLike α] (hε : ∀ {e f : ε}, Like strict e f → e = f)
    (hα : ∀ {a b : α}, Like strict a b → a = b) {o o' : Run.Outcome State ε α}
    (h : o.Follows (running strict) o') (h' : o'.Follows (running strict) o) : o = o' := by
  have hends : ∀ {o o' : Run.Outcome State ε α}, o.Follows (running strict) o' → o ≠ .cutOff →
      o = o' := by
    intro o o' h hend
    cases o with
    | value a s =>
        rcases h with hloud | ⟨b, t, rfl, hab, hst⟩
        · exact absurd hloud (not_loud_strict s)
        · rw [hα hab, hst.like.eq trivial trivial]
    | error e s =>
        rcases h with hloud | ⟨f, t, rfl, hef, hst⟩
        · exact absurd hloud (not_loud_strict s)
        · rw [hε hef, hst.like.eq trivial trivial]
    | cutOff => exact absurd rfl hend
  by_cases hend : o = .cutOff
  · by_cases hend' : o' = .cutOff
    · rw [hend, hend']
    · exact (hends h' hend').symm
  · exact hends h hend

variable {again again' : Again}

/-- Answers that agree where depth and units move together follow each other there. -/
theorem nestedAlike_of_agree (hagain : Restoring again)
    (h : ∀ {α : Type} (work : Work α) (s : State), Aligned s → again work s = again' work s) :
    NestedAlike strict again again' := by
  have hsim : ∀ {α : Type} [HasLike α] (work : Work α),
      Alike strict (again work) (again' work) := by
    intro α _ work
    refine ⟨hagain work, fun {s t} hs haligned => ?_⟩
    obtain rfl : s = t := hs.like.eq trivial trivial
    rw [← h work s (haligned trivial)]
    exact follows_self _
  constructor
  · intro e f he
    rw [he.eq trivial]
    exact hsim _
  · intro b c hb
    rw [hb.eq trivial]
    exact hsim _
  · intro v w vs ws p q hv hvs hspan
    rw [hv.eq trivial, valuesLike_eq trivial hvs, hspan trivial]
    exact hsim _
  · intro native vs ws hvs
    rw [valuesLike_eq trivial hvs]
    exact hsim _

/-- A run that starts where depth and units move together asks for nothing elsewhere. -/
theorem Asks.aligned [HasLike ε] [HasLike β] (hε : ∀ {e f : ε}, Like strict e f → e = f)
    (hβ : ∀ {a b : β}, Like strict a b → a = b) {body : Again → Run State ε β}
    (hbody : ∀ {again again' : Again}, NestedAlike strict again again' →
      Sim (running strict) (aligned strict) (body again) (body again'))
    {work : Work α} (h : Asks body s work u) (hs : Aligned s) : Aligned u := by
  obtain ⟨again, again', hagain, hagain', hagree, hdiffer⟩ := h
  by_contra hu
  have heq : ∀ {γ : Type} (other : Work γ) (t : State), Aligned t →
      again other t = again' other t := by
    intro γ other t ht
    by_contra hne
    exact hu ((hagree other t hne).2 ▸ ht)
  have hthere := hbody (nestedAlike_of_agree hagain heq)
  have hback := hbody (nestedAlike_of_agree hagain' fun other t ht => (heq other t ht).symm)
  exact hdiffer (eq_of_follows hε hβ (hthere.follows (matched_strict s) fun _ => hs)
    (hback.follows (matched_strict s) fun _ => hs))

/-- What a run with restoring answers does restores. -/
theorem restored_of_end [HasLike ε] [HasLike β] {body : Run State ε β}
    (hbody : Sim (running strict) (aligned strict) body body)
    (hend : (body s).state? = some t) : Restored s t := by
  cases hrun : body s with
  | value a u =>
      rw [hrun] at hend
      cases hend
      exact hbody.moves_value hrun
  | error e u =>
      rw [hrun] at hend
      cases hend
      exact hbody.moves_error hrun
  | cutOff =>
      rw [hrun] at hend
      cases hend

end Interpreter

namespace Live

theorem aligned (h : Live s) : Aligned s := by
  induction h with
  | start settings => exact ⟨rfl, rfl, fun _ _ => Nat.zero_le _⟩
  | requested _ rounds request work hasks ih =>
      exact hasks.aligned (Session.RunError.Like.eq trivial trivial)
        (Session.Answer.Like.eq trivial)
        (fun h => Alike.request h rounds 0 request) ih
  | nested _ rounds outer work hasks ih =>
      let _ := outer.hasLike
      exact hasks.aligned eq_of_evalError (fun h => outer.eq_of_like trivial h)
        (fun h => (h.perform rounds 0).part outer) ih
  | answered _ rounds request again hagain hend ih =>
      have hsame := nestedAlike_of_agree hagain fun _ _ _ => rfl
      exact (restored_of_end (Alike.request hsame rounds 0 request) hend).aligned ih
  | @ended s t α _ rounds work again hagain hend ih =>
      let _ := work.hasLike
      have hsame := nestedAlike_of_agree hagain fun _ _ _ => rfl
      exact (restored_of_end ((hsame.perform rounds 0).part work) hend).aligned ih
  | addModule _ name source ih => exact { ih with }
  | takeWarnings _ ih => exact { ih with }
  | takeOutput _ ih => exact { ih with }

end Live

/-! ## Where a `begin` block starts -/

namespace Interpreter

/-- A run asks for a part if it is cut off with the part, and is not if the part fails. -/
theorem Asks.of_ends {body : Again → Run State ε β} {work : Work α} {e : EvalError}
    (hcutOff : ∀ again : Again, again work u = .cutOff → body again s = .cutOff)
    (herror : ∀ again : Again, again work u = .error e u → body again s ≠ .cutOff) :
    Asks body s work u := by
  let silent : Again := fun _ => Run.cutOff
  let failing : Again := instead silent work u (.error e u)
  have hagree : AgreeBut work u silent failing := agreeBut_instead silent work u (.error e u)
  refine ⟨silent, failing, fun _ _ _ _ => trivial, fun other s t ht => ?_, hagree, ?_⟩
  · by_cases hpart : (⟨_, other⟩ : Σ γ, Work γ) = ⟨α, work⟩ ∧ t = u
    · have hfails : failing other t = .error e u := if_pos hpart
      simp only [hfails]
      exact hpart.2 ▸ ht
    · have hsilent : failing other t = .cutOff := if_neg hpart
      simp only [hsilent]
  · rw [hcutOff silent rfl]
    exact (herror failing (instead_self silent work u (.error e u))).symm

/-- A `begin` block runs its body one deeper, in a frame and a scope of its own, and fails if the
body does. -/
theorem beginBlock_apply {again : Again} {levels : Nat} {body : Block} {span : Span} {id : UnitId}
    {calls : CallStack} (hunit : s.constructing? = some id)
    (hpush : s.calls.push ⟨s!"{s.unitName}::BEGIN", .beginBlock, some span⟩ = .ok calls)
    (hentered : { s with
      depth := s.depth + 1
      nesting := s.nesting + levels
      calls
      currentUnit := some id
      env := s.env.pushDetached none } = u) :
    let left (t : State) : State := { t with
      depth := t.depth - 1
      nesting := t.nesting - levels
      calls := t.calls.pop
      currentUnit := s.currentUnit
      env := t.env.pop }
    beginBlock again levels body span s =
      match again (.block body) u with
      | .value _ t => .value () (left t)
      | .error e t => .error (t.calls.attachBacktrace e) (left t)
      | .cutOff => .cutOff := by
  simp only [beginBlock, hunit, inCodeOf, inFrame, withFrame, pushFrame, hpush, traced,
    inDetachedScope, Run.bind_apply, Run.get_apply, Run.set_apply, Run.modify_apply, Run.ensuring,
    Run.mapError, hentered]
  cases again (.block body) u <;> rfl

/-- Where the text of a main unit starts with a `begin` block, constructing it asks for the body: one
deeper, in a frame of the block, and with the unit under construction. -/
theorem Asks.compile_begin {bound : Nat} {source : String} {name path : Option String} {body : Block}
    {behind : Buffer} {calls : CallStack}
    (hkeyword : (Buffer.ofString source).next.1.kind = .kwBegin)
    (hbody : ∀ (again : Again) (h : State),
      Parser.run (host (bound + 1) again) (bound + 1) (.block .beginBlock)
        ⟨(Buffer.ofString source).next.2, [.declaring .unit []], h⟩ =
          .value body ⟨behind, [.declaring .unit []], h⟩)
    (hpush : s.calls.push ⟨s!"{name.getD s.mainUnit}::BEGIN", .beginBlock,
      some ((Buffer.ofString source).next.1.span.merge body.span)⟩ = .ok calls)
    (hentered : { (s.enterUnit (name.getD s.mainUnit) .main path source).withBuffer behind with
      depth := s.depth + 1
      calls
      currentUnit := some s.records.nextId
      env := s.env.pushDetached none } = u) :
    Asks (fun again => (Request.compile source name path).runWith (bound + 1) again) s (.block body)
      u := by
  refine .of_ends (e := default) (fun again hend => ?_) fun again hend => ?_
  all_goals
    have hblock : beginBlock again (bound + 1 - (bound + 1)) body
        ((Buffer.ofString source).next.1.span.merge body.span)
        ((s.enterUnit (name.getD s.mainUnit) .main path source).withBuffer behind) = _ :=
      beginBlock_apply (u := u) rfl hpush (by rw [Nat.sub_self]; exact hentered)
    simp only [hend] at hblock
    simp only [Request.runWith, Request.compileWith, map_eq_pure_bind, Run.bind_apply,
      Run.get_apply, Run.mapError, construct_apply, Parser.runUnit_begin hkeyword (hbody again _),
      Parser.runBegin, host_runBegin, hblock]
  · rfl
  · exact fun hcutOff => by cases hcutOff

end Interpreter

/-! ## Deferral at live states -/

namespace Interpreter

/-- Where the depth counts the units, hooks are refused outside construction and in evaluated
strings only: a unit that takes text is there at every other depth. -/
theorem site_defer_error (hdepth : s.depth = s.units.length) {hook : Hook DeferredBlock}
    {d : Deferral DeferredBlock} {cause : HookError}
    (herror : (d.defer State.site hook s).1 = .error cause) :
    cause = .notConstructing ∨ cause = .stringEval := by
  rw [Deferral.defer, show State.site.depth s = s.depth from rfl] at herror
  by_cases hzero : s.depth = 0
  · rw [if_pos hzero] at herror
    cases herror
    exact .inl rfl
  rw [if_neg hzero] at herror
  -- at a positive depth there is an innermost unit, which takes text unless it is a string
  obtain ⟨unit, outer, hunits⟩ := List.exists_cons_of_length_pos (l := s.units) (by omega)
  have hstring : State.site.inStringEval s = decide (unit.origin = .stringEval) := by
    simp [State.site, hunits]
  by_cases horigin : unit.origin = .stringEval
  · rw [if_pos (by rw [hstring, decide_eq_true horigin])] at herror
    cases herror
    exact .inr rfl
  rw [if_neg (by simp [hstring, horigin]), show State.site.inject = State.inject from rfl,
    inject_eq hunits horigin] at herror
  dsimp only at herror
  cases hslot : d.pending.dispatchAt? s.depth with
  | some fn =>
      rw [if_pos (by simp [Pending.hasSlot, hslot]), Pending.add_join hook hzero hslot] at herror
      cases herror
  | none =>
      rw [if_neg (by simp [Pending.hasSlot, hslot]), Pending.add_open hook hzero hslot] at herror
      cases herror

/-- Putting a callable off fails with what refuses its hook, if it is callable at all. -/
theorem defer_error {callable : Value} {after : Bool} {e : EvalError}
    (herror : defer callable after s = .error e t) :
    e.kind = .notCallable callable.typeName ∨ ∃ hook cause,
      (s.deferral.defer State.site hook { s with deferral := default }).1 = .error cause ∧
        e.kind = .hook cause := by
  cases hcallable : callable.isCallable with
  | false =>
      simp only [defer, hcallable, Bool.not_false, if_true] at herror
      cases herror
      exact .inl rfl
  | true =>
      simp only [defer, hcallable, Bool.not_true, Bool.false_eq_true, if_false, Run.bind_apply,
        Run.get_apply, Run.modifyGet_apply, State.withDeferral] at herror
      generalize (if after = true then Hook.afterRuntime ⟨callable, hookLabel s after⟩
        else Hook.atRuntime ⟨callable, hookLabel s after⟩ : Hook DeferredBlock) = hook at herror
      refine .inr ⟨hook, ?_⟩
      generalize s.deferral.defer State.site hook { s with deferral := default }
        = deferred at herror ⊢
      obtain ⟨result, d, u⟩ := deferred
      cases result with
      | ok added => cases herror
      | error cause =>
          cases herror
          exact ⟨cause, rfl, rfl⟩

/-- Text is refused where no unit is under construction, and in evaluated strings. -/
theorem lexStuff_error_iff (text : String) (s : State) (cause : InjectError) :
    (∃ e t, lexStuff text s = .error e t ∧ e.kind = .hook (.inject cause)) ↔
      match cause with
      | .noUnit => s.units = []
      | .stringEval => ∃ unit outer, s.units = unit :: outer ∧ unit.origin = .stringEval := by
  rw [Alike.lexStuff_apply]
  rcases splices_into s with hnone | ⟨unit, outer, hunits, horigin⟩
  · rw [inject_refused hnone]
    cases hunits : s.units with
    | nil => cases cause <;> simp [State.raised, Raised.amid]
    | cons unit outer =>
        have horigin := hnone unit outer hunits
        cases cause <;> simp [State.raised, Raised.amid, horigin]
  · rw [inject_eq hunits horigin, hunits]
    cases cause <;> simp [horigin]

end Interpreter

/-- Wherever code or a native sub is at work, the depth is the number of units under construction,
and the `begin` blocks at work belong to these units one by one, from the innermost on.  So a splice
for a hook is never refused, and a splice by hand is refused at depth zero and in evaluated strings.
-/
theorem depth_counts_units (h : Live s) :
    (s.depth = s.units.length ∧ s.begins = s.units.map Construction.beginName) ∧
    (∀ callable after e t cause, defer callable after s = .error e t →
      e.kind ≠ .hook (.inject cause)) ∧
    (∀ text, (∃ e t, lexStuff text s = .error e t ∧ e.kind = .hook (.inject .noUnit)) ↔
      s.depth = 0) ∧
    (∀ text, (∃ e t, lexStuff text s = .error e t ∧ e.kind = .hook (.inject .stringEval)) ↔
      ∃ unit outer, s.units = unit :: outer ∧ unit.origin = .stringEval) := by
  have haligned := h.aligned
  refine ⟨⟨haligned.depth, haligned.begins⟩, fun callable after e t cause herror hkind => ?_,
    fun text => ?_, fun text => lexStuff_error_iff text s .stringEval⟩
  · rcases defer_error herror with hother | ⟨hook, refusal, hrefusal, hother⟩
    · rw [hother] at hkind
      cases hkind
    · rw [hother] at hkind
      cases hkind
      have hdepth : ({ s with deferral := default } : State).depth
          = ({ s with deferral := default } : State).units.length := haligned.depth
      rcases site_defer_error hdepth hrefusal with h | h <;> cases h
  · rw [lexStuff_error_iff text s .noUnit, haligned.depth, List.length_eq_zero_iff]

/-- In the `begin` block of a main unit the depth is one, and so is the number of units under
construction, so no splice is refused. -/
theorem depth_counts_units_in_begin : ∃ u, Live u ∧ u.depth = 1 ∧ u.units.length = 1 ∧
    u.begins = ["main::BEGIN"] ∧ ∀ text cause e t, lexStuff text u = .error e t →
      e.kind ≠ .hook (.inject cause) := by
  let s := Session.start .default
  let source := "begin { }"
  let keyword := (Buffer.ofString source).next
  let opening := keyword.2.next
  let closing := opening.2.next
  have hkeyword : keyword.1.kind = .kwBegin := by decide +kernel
  have hopen : opening.1.kind = .braceOpen := by decide +kernel
  have hclose : closing.1.kind = .braceClose := by decide +kernel
  let body : Block := .mk (opening.1.span.merge closing.1.span) []
  let u : State := { (s.enterUnit "main" .main none source).withBuffer closing.2 with
    depth := 1
    calls := s.calls.pushed ⟨"main::BEGIN", .beginBlock, some (keyword.1.span.merge body.span)⟩
    currentUnit := some s.records.nextId
    env := s.env.pushDetached none }
  have hbody : ∀ (again : Again) (h : State), Parser.run (host 2 again) 2 (.block .beginBlock)
      ⟨keyword.2, [.declaring .unit []], h⟩ = .value body ⟨closing.2, [.declaring .unit []], h⟩ :=
    fun again h => Parser.block_empty (s := ⟨keyword.2, _, h⟩) hopen hclose _
  have hasks : Asks (fun again => (Request.compile source none none).runWith 2 again) s
      (.block body) u := .compile_begin hkeyword hbody rfl rfl
  have hlive : Live u := .requested (.start .default) 2 _ _ hasks
  obtain ⟨⟨hdepth, hbegins⟩, -, hnone, hstring⟩ := depth_counts_units hlive
  refine ⟨u, hlive, rfl, hdepth.symm, hbegins, fun text cause e t herror hkind => ?_⟩
  cases cause with
  | noUnit => exact absurd ((hnone text).1 ⟨e, t, herror, hkind⟩) Nat.one_ne_zero
  | stringEval =>
      obtain ⟨unit, outer, hunits, horigin⟩ := (hstring text).1 ⟨e, t, herror, hkind⟩
      cases hunits
      cases horigin

end TwoPhase
