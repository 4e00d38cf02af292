import TwoPhase.Proofs.Sound.Parser
import TwoPhase.Proofs.Sound.Running

/-!
# Construction of sound code

The interpreter is a host that conducts itself: the buffer and the state stay sound while a unit is
parsed, since what is installed is sound, and so is what `begin` blocks do.  So the unit that comes
of it is sound for its final text, and an error of it points into that text.
-/

namespace TwoPhase

open Interpreter

/-- A unit that is sound for its text. -/
def CompiledUnit.Sound (s : State) (unit : CompiledUnit) : Prop :=
  ∃ text, s.settled? unit.id = some text ∧ unit.body.Sound text .unit []

theorem CompiledUnit.Sound.settles {s t : State} {unit : CompiledUnit} (h : unit.Sound s)
    (hst : s.Settles t) : unit.Sound t := by
  obtain ⟨text, htext, hbody⟩ := h
  obtain ⟨more, hmore, hbegins⟩ := hst unit.id text htext
  exact ⟨more, hmore, hbody.mono hbegins⟩

namespace Interpreter

open Run (Agrees)

variable {s t : State} {floor rounds : Nat} {again again' : Again} {b c : Buffer}
  {unit : Construction} {outer : List Construction}

/-! ## Buffers at hand -/

theorem State.withBuffer_cons (hunits : s.units = unit :: outer) (buffer : Buffer) :
    s.withBuffer buffer = { s with units := { unit with buffer } :: outer } := by
  simp only [withBuffer, hunits]

theorem State.withBuffer_bufferOr (hunits : s.units = unit :: outer) (buffer : Buffer) :
    s.withBuffer (s.bufferOr buffer) = s := by
  rw [withBuffer_cons hunits]
  have hbuffer : s.bufferOr buffer = unit.buffer := by simp [bufferOr, hunits]
  rw [hbuffer, ← hunits]

theorem State.After.withBuffer (hs : (s.withBuffer b).Sound) (hunits : s.units = unit :: outer)
    (hbehind : b.behind <+: c.behind) : (s.withBuffer b).After floor (s.withBuffer c) := by
  rw [State.withBuffer_cons hunits] at hs ⊢
  rw [State.withBuffer_cons hunits]
  exact .buffer hs rfl hbehind s.warnings

/-- A state whose innermost unit has a buffer that is kept elsewhere. -/
structure State.Hosts (floor : Nat) (b : Buffer) (s : State) : Prop where
  sound : (s.withBuffer b).Sound
  units : ∃ unit outer, s.units = unit :: outer
  size : floor ≤ s.env.heap.size

/-- What becomes of such a state. -/
structure State.Hosted (floor : Nat) (b : Buffer) (s : State) (c : Buffer) (t : State) : Prop where
  hosts : t.Hosts floor c
  after : (s.withBuffer b).After floor (t.withBuffer c)
  behind : b.behind <+: c.behind

/-- A unit whose buffer was handed over is still the innermost one, with what it has consumed
since. -/
theorem hosted_bufferOr (hs : s.Hosts floor b) (hunits : s.units = unit :: outer)
    (h : (s.withBuffer b).After floor t) : s.Hosted floor b (t.bufferOr b) t := by
  have hinner := State.withBuffer_cons hunits b
  obtain ⟨now, rest, hnow⟩ : ∃ now rest, t.units = now :: rest := by
    cases ht : t.units with
    | nil => simpa [ht, hinner] using h.units
    | cons now rest => exact ⟨now, rest, rfl⟩
  have hid : now.id = unit.id := by
    have hids := h.units
    rw [hnow, hinner] at hids
    exact (List.cons.inj hids).1
  have hbuffer : t.bufferOr b = now.buffer := by simp [State.bufferOr, hnow]
  have hsettled : (s.withBuffer b).settled? unit.id = some b.behind := by
    rw [hinner]
    exact (State.settled?_cons rfl).trans (if_pos rfl)
  obtain ⟨more, hmore, hbegins⟩ := h.settles unit.id b.behind hsettled
  rw [State.settled?_cons hnow, if_pos hid] at hmore
  refine ⟨⟨?_, ⟨now, rest, hnow⟩, Nat.le_trans hs.size h.env.size⟩, ?_, ?_⟩
  · rw [State.withBuffer_bufferOr hnow]
    exact h.sound
  · rwa [State.withBuffer_bufferOr hnow]
  · rw [hbuffer, Option.some.inj hmore]
    exact hbegins

/-- An error that has yet to be told which unit it is in. -/
inductive CompileError.Pending (b : Buffer) (s : State) : CompileError → Prop where
  | parse {error : ParseError} (hspan : error.span.Fits b.chars)
      (hopened : ∀ opened ∈ error.fault.openedAt?, opened.Fits b.chars) :
      CompileError.Pending b s (.parse error none)
  | failedBegin {span : Span} {cause : EvalError} (hspan : span.Fits b.chars)
      (hcause : EvalError.Sound (s.withBuffer b) cause) :
      CompileError.Pending b s (.failedBegin span cause none)

/-- A unit is left whose parse ended with a buffer. -/
structure Left (floor : Nat) (s : State) (id : UnitId) (b : Buffer) (t u : State) : Prop where
  after : s.After floor u
  settles : (t.withBuffer b).Settles u
  settled : u.settled? id = some b.chars

theorem left {name : String} {origin : UnitOrigin} {path : Option String} {source : String}
    (hs : s.Sound) (h : (s.enterUnit name origin path source).After floor (t.withBuffer b))
    (hunits : t.units = unit :: outer) :
    Left floor s s.records.nextId b t (t.leaveUnit s.records.nextId b.source) := by
  let now : Construction := { unit with buffer := b }
  have hnow : (t.withBuffer b).units = now :: outer := by rw [State.withBuffer_cons hunits]
  have hid : now.id = s.records.nextId := by
    have hids := h.units
    rw [hnow] at hids
    exact (List.cons.inj hids).1
  have hleave : t.leaveUnit s.records.nextId b.source
      = (t.withBuffer b).leaveUnit now.id b.source := by
    rw [hid, State.withBuffer_cons hunits, State.leaveUnit, State.leaveUnit, hunits]
    rfl
  have htext : b.source.toList = b.chars := String.toList_ofList
  have hbehind : now.buffer.behind <+: b.source.toList := htext ▸ b.behind_le
  rw [hleave]
  refine ⟨.leaveUnit hs h hnow hbehind, .leaveUnit h.sound.ordered hnow hbehind, ?_⟩
  rw [← hid, ← htext]
  exact State.settled?_leaveUnit h.sound.ordered hnow b.source

/-- An error is told which unit it is in. -/
theorem Left.placed {id : UnitId} {u : State} (h : Left floor s id b t u) {e : CompileError}
    (he : CompileError.Pending b t e) : CompileError.Sound u (e.inUnit id) := by
  cases he with
  | parse hspan hopened =>
      exact .parse ⟨b.chars, h.settled, hspan⟩
        fun opened hmem => ⟨b.chars, h.settled, hopened opened hmem⟩
  | failedBegin hspan hcause =>
      exact .failedBegin ⟨b.chars, h.settled, hspan⟩ (hcause.settles h.settles)

namespace SoundParts

variable (h : SoundParts again again')

include h

/-! ## `begin` blocks -/

theorem beginBlock (hs : s.Sound) (hunits : s.units = unit :: outer) {body : Block}
    {scopes : List Parser.LexicalScope} (hbody : body.Sound unit.buffer.behind .beginBlock scopes)
    (hfloor : floor ≤ s.env.heap.size) (levels : Nat) (span : Span) :
    Runs floor s (beginBlock again levels body span) (beginBlock again' levels body span)
      fun _ _ => True := by
  have hlasting : Lasting fun (_ : Unit) (_ : State) => True := fun _ _ _ _ _ => trivial
  have hconstructing : s.constructing? = some unit.id := by simp [State.constructing?, hunits]
  have hsettled : s.settled? unit.id = some unit.buffer.behind := by
    rw [State.settled?_cons hunits, if_pos rfl]
  refine .get ?_
  rw [hconstructing]
  have hentered : s.After floor
      { s with depth := s.depth + 1, nesting := s.nesting + levels } := .quiet hs rfl rfl rfl rfl
  have hleave : ∀ t, State.After floor
      { s with depth := s.depth + 1, nesting := s.nesting + levels } t →
      s.After floor { t with depth := t.depth - 1, nesting := t.nesting - levels } := fun t ht =>
    hentered.trans (ht.trans (.quiet ht.sound rfl rfl rfl rfl))
  refine Agrees.between (E := fun e t => EvalError.Sound t e) (Q := fun _ _ => True) ?_ rfl
    (fun _ t ht _ => ⟨hleave t ht, trivial⟩) fun e t ht he => ⟨hleave t ht, ?_⟩
  · refine Runs.inCodeOf hentered.sound hlasting fun hcode => Runs.withFrame hcode hlasting
      fun calls hframe => Runs.traced ?_
    refine Runs.inScope hframe hlasting rfl fun hscope => Agrees.bind (Runs.nested h (.block body)
      hscope ⟨_, .beginBlock, scopes, ⟨⟨unit.id, _, rfl, hsettled, List.prefix_rfl⟩,
        .pushDetached nofun⟩, hbody⟩ hfloor) fun _ t ht _ => .pure (.refl ht.sound) trivial
  · refine EvalError.Sound.settles ?_ he
    exact .of_units rfl rfl

/-! ## Parsing -/

/-- The interpreter as a host. -/
def conduct (rounds floor : Nat) :
    Parser.Conduct (host rounds again) (host rounds again') where
  Inv b s := s.Hosts floor b
  Leads b s c t := s.Hosted floor b c t
  Fails e b s := CompileError.Pending b s e
  inv h := h.hosts
  refl h := ⟨h, .refl h.sound, List.prefix_rfl⟩
  trans h h' := ⟨h'.hosts, h.after.trans h'.after, h.behind.trans h'.behind⟩
  behind h := h.behind
  looks {b s} h := by
    obtain ⟨unit, outer, hunits⟩ := h.units
    have hafter : (s.withBuffer b).After floor (s.withBuffer b.lookAhead) :=
      .withBuffer h.sound hunits List.prefix_rfl
    exact ⟨⟨hafter.sound, h.units, h.size⟩, hafter, List.prefix_rfl⟩
  advances {b s} h := by
    obtain ⟨unit, outer, hunits⟩ := h.units
    have hafter : (s.withBuffer b).After floor (s.withBuffer b.next.2) :=
      .withBuffer h.sound hunits b.behind_le_next
    exact ⟨⟨hafter.sound, h.units, h.size⟩, hafter, b.behind_le_next⟩
  sameGlobals := rfl
  resolves {b s} name h := by
    have hafter : (s.withBuffer b).After floor
        (State.withBuffer { s with globals := s.globals.ensure name } b) := .ensure h.sound name
    exact ⟨⟨hafter.sound, h.units, h.size⟩, hafter, List.prefix_rfl⟩
  sameSubs := rfl
  installs {b s} name function scopes h hfunction := by
    obtain ⟨unit, outer, hunits⟩ := h.units
    let sub : Sub := ⟨s.nextId, name, function, none, s.constructing?⟩
    have hsettled : (s.withBuffer b).settled? unit.id = some b.behind := by
      rw [State.withBuffer_cons hunits]
      exact (State.settled?_cons rfl).trans (if_pos rfl)
    have hsub : sub.Sound (s.withBuffer b) :=
      ⟨by simp [sub, State.constructing?, hunits], hsettled, hfunction, nofun⟩
    have hdefined : (s.withBuffer b).After floor (State.withBuffer { s with
        globals := s.globals.define name (.sub sub) } b) := .defineGlobal h.sound name (.sub hsub)
    have hafter : (s.withBuffer b).After floor (State.withBuffer { s with
        globals := s.globals.define name (.sub sub), nextId := s.nextId + 1 } b) :=
      hdefined.trans (.quiet hdefined.sound rfl rfl rfl rfl)
    exact ⟨⟨hafter.sound, h.units, h.size⟩, hafter, List.prefix_rfl⟩
  begins {b s} left body span scopes hb hbody hspan := by
    obtain ⟨unit, outer, hunits⟩ := hb.units
    have hinner : (s.withBuffer b).units = { unit with buffer := b } :: outer := by
      rw [State.withBuffer_cons hunits]
    have hbegin := h.beginBlock hb.sound hinner hbody hb.size (rounds - left) span
    have hend : ∀ t, (s.withBuffer b).After floor t → s.Hosted floor b (t.bufferOr b) t :=
      fun t ht => hosted_bufferOr hb hunits ht
    simp only [Agrees, host_runBegin, hbegin.same]
    cases hbody : Interpreter.beginBlock again (rounds - left) body span (s.withBuffer b) with
    | value a t => exact ⟨trivial, hend t (hbegin.value hbody).1, trivial⟩
    | error e t =>
        obtain ⟨ht, he⟩ := hbegin.error hbody
        refine ⟨trivial, hend t ht, .failedBegin ?_ ?_⟩
        · exact (hspan.mono (hend t ht).behind).mono (t.bufferOr b).behind_le
        · obtain ⟨now, rest, hnow⟩ := (hend t ht).hosts.units
          dsimp only
          rwa [State.withBuffer_bufferOr hnow]
    | cutOff => exact ⟨trivial, trivial⟩
  fails h hspan hopened := .parse hspan hopened

/-! ## Units -/

/-- A unit that was constructed is sound for its final text, and an error points into that text. -/
theorem construct (hs : s.Sound) (hfloor : floor ≤ s.env.heap.size) (name : String)
    (origin : UnitOrigin) (path : Option String) (source : String) :
    Agrees (State.After floor) (fun e t => CompileError.Sound t e) s
      (construct rounds again name origin path source)
      (construct rounds again' name origin path source) fun unit t => unit.Sound t := by
  let entered := s.enterUnit name origin path source
  let buffer := Buffer.ofString source
  have hunits : entered.units = ⟨default, origin, name, s.records.nextId⟩ :: s.units := rfl
  have hentered : entered.Sound := hs.enterUnit name origin path source
  have hopened : entered.After floor (entered.withBuffer buffer) := by
    rw [State.withBuffer_cons hunits]
    exact .buffer hentered hunits (List.nil_prefix : [] <+: buffer.behind) entered.warnings
  have hparse := (h.conduct rounds floor).runUnit
    (p := .start source (s.enterUnit name origin path source)) rounds
    ⟨hopened.sound, ⟨_, _, hunits⟩, hfloor⟩
  have hleft : ∀ q, (h.conduct rounds floor).Stays (.start source entered) q →
      Left floor s s.records.nextId q.buffer q.host
        (q.host.leaveUnit s.records.nextId q.buffer.source) := by
    intro q hq
    have hleads : entered.Hosted floor buffer q.buffer q.host := hq.leads
    obtain ⟨unit, outer, hunits⟩ := hleads.hosts.units
    exact left hs (hopened.trans hleads.after) hunits
  simp only [Agrees, construct_apply, hparse.same]
  cases hend : Parser.runUnit (host rounds again) rounds (.start source entered) with
  | value body q =>
      obtain ⟨hstays, hbody⟩ := hparse.value hend
      have hq := hleft q hstays
      have hscopes : q.scopes = [] := hstays.scopes
      exact ⟨trivial, hq.after, q.buffer.chars, hq.settled, hscopes ▸ hbody⟩
  | error e q =>
      obtain ⟨hstays, he⟩ := hparse.error hend
      have hq := hleft q hstays
      have hunwound : State.After floor _ _ := .unwindTo hq.after.sound s.depth
      exact ⟨trivial, hq.after.trans hunwound, (hq.placed he).settles hunwound.settles⟩
  | cutOff => exact ⟨trivial, trivial⟩

theorem execute (hs : s.Sound) (hfloor : floor ≤ s.env.heap.size) {unit : CompiledUnit}
    (hunit : unit.Sound s) :
    Runs floor s (execute again unit) (execute again' unit) fun v t => v.Sound t := by
  obtain ⟨text, htext, hbody⟩ := hunit
  have hblock : Runs floor s
      (withFrame ⟨unit.name, .unit, none⟩
        (inCodeOf (some unit.id) (inDetachedScope none (again (.block unit.body)))))
      (withFrame ⟨unit.name, .unit, none⟩
        (inCodeOf (some unit.id) (inDetachedScope none (again' (.block unit.body)))))
      fun flow t => flow.value.Sound t := by
    refine Runs.withFrame hs lasting_value fun calls hframe => ?_
    refine Runs.inCodeOf hframe lasting_value fun hcode => ?_
    refine Runs.inScope hcode lasting_value rfl fun hscope => ?_
    exact Runs.nested h (.block unit.body) hscope ⟨text, .unit, [],
      ⟨⟨unit.id, text, rfl, htext, List.prefix_rfl⟩, .pushDetached fun _ => .inl rfl⟩, hbody⟩ hfloor
  exact hblock.bind fun flow t ht hflow => .pure (.refl ht.sound) hflow

theorem constructNow (hs : s.Sound) (hfloor : floor ≤ s.env.heap.size) (name : String)
    (origin : UnitOrigin) (path : Option String) (source : String) :
    Runs floor s (constructNow rounds again name origin path source)
      (constructNow rounds again' name origin path source) fun unit t => unit.Sound t := by
  refine (h.construct hs hfloor name origin path source).mapError fun e t _ he => ?_
  exact .mk (.inl ⟨rfl, rfl⟩) (fun error herror => by cases herror; exact he) nofun

theorem evalString (hs : s.Sound) (hfloor : floor ≤ s.env.heap.size) (text : String) :
    Runs floor s (evalString rounds again text) (evalString rounds again' text)
      fun v t => v.Sound t :=
  (h.constructNow hs hfloor _ _ _ _).bind fun _ _ ht hunit =>
    h.execute ht.sound (Nat.le_trans hfloor ht.env.size) hunit

/-! ## Modules -/

omit h in
theorem findModuleFile (hs : s.Sound) (name : String) (dirs : List String) :
    Runs floor s (findModuleFile name dirs) (findModuleFile name dirs) fun _ _ => True := by
  induction dirs generalizing s with
  | nil => exact Runs.raise hs nofun
  | cons dir dirs ih =>
      refine Agrees.bind (Q := fun _ _ => True) (.update (.quiet hs rfl rfl rfl rfl) trivial)
        fun _ t ht _ => .get ?_
      split
      · exact .pure (.refl ht.sound) trivial
      · exact Runs.raise ht.sound nofun
      · exact ih ht.sound

theorem load (hs : s.Sound) (hfloor : floor ≤ s.env.heap.size) (name : String)
    (path : Option String) (source : String) (entry : Option ModuleEntry) :
    Runs floor s (load rounds again name path source entry)
      (load rounds again' name path source entry) fun v t => v.Sound t := by
  refine Agrees.bind (Q := fun _ t => floor ≤ t.env.heap.size)
    (.update (.quiet hs rfl rfl rfl rfl) hfloor) fun _ t ht hsize => ?_
  refine Agrees.bind (Agrees.attempt ((h.constructNow ht.sound hsize _ _ _ _).bind
    fun _ u hu hunit => h.execute hu.sound (Nat.le_trans hsize hu.env.size) hunit))
    fun result u hu hresult => ?_
  cases result with
  | ok value => exact .pure (.refl hu.sound) (.bool true)
  | error e =>
      refine Agrees.bind (Q := fun _ v => EvalError.Sound v e) (.update
        (.quiet hu.sound rfl rfl rfl rfl) ?_) fun _ v hv he => .throw (.refl hv.sound) he
      refine EvalError.Sound.settles ?_ (show EvalError.Sound u e from hresult)
      exact .of_units rfl rfl

theorem require (hs : s.Sound) (hfloor : floor ≤ s.env.heap.size) (name : String) :
    Runs floor s (require rounds again name) (require rounds again' name)
      fun v t => v.Sound t := by
  refine .get ?_
  split
  · exact .pure (.refl hs) (.bool true)
  · exact h.load hs hfloor _ _ _ _
  · refine (findModuleFile hs name s.modulePaths).bind fun found t ht _ => ?_
    exact h.load ht.sound (Nat.le_trans hfloor ht.env.size) _ _ _ _

end SoundParts

end Interpreter

end TwoPhase
