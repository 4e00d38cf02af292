import TwoPhase.Proofs.Likeness.Deferral
import TwoPhase.Proofs.Likeness.Parser

/-!
# Construction side by side

If code that nests can follow other such code, so can the `begin` blocks that a parser runs, and so
can the constructions of texts with the same words.  A construction starts where depth and units
move together; its parser runs one unit further in, and its `begin` blocks one level deeper.
-/

namespace TwoPhase.Interpreter

open Run (Sim)

variable {K : Comparison} {s t u : State}

/-- The same end of statements, up to spans in values. -/
inductive Flow.Like (K : Comparison) : Flow → Flow → Prop where
  | normal {v w : Value} (h : v.Like K w) : Flow.Like K (.normal v) (.normal w)
  | ret {v w : Value} (h : v.Like K w) : Flow.Like K (.ret v) (.ret w)

theorem Flow.Like.refl : ∀ flow : Flow, flow.Like K flow
  | .normal value => .normal (.same value)
  | .ret value => .ret (.same value)

theorem Flow.Like.value {f g : Flow} (h : f.Like K g) : f.value.Like K g.value := by
  cases h <;> assumption

theorem Flow.Like.eq (hexact : K.exact) {f g : Flow} (h : f.Like K g) : f = g := by
  cases h with
  | normal h => rw [h.eq hexact]
  | ret h => rw [h.eq hexact]

instance : HasLike Flow := ⟨Flow.Like, fun _ => .refl⟩

/-- Ways to run what may nest that follow each other. -/
structure NestedAlike (K : Comparison) (again again' : Again) : Prop where
  expr : ∀ {e f : Expr}, e.Like K f → Alike K (again (.expr e)) (again' (.expr f))
  block : ∀ {b c : Block}, b.Like K c → Alike K (again (.block b)) (again' (.block c))
  call : ∀ {v w : Value} {vs ws : List Value} {p q : Span}, v.Like K w →
    vs.Forall₂ (Value.Like K) ws → p.Like K q →
    Alike K (again (.call v vs p)) (again' (.call w ws q))
  native : ∀ (native : Native) {vs ws : List Value}, vs.Forall₂ (Value.Like K) ws →
    Alike K (again (.native native vs)) (again' (.native native ws))

/-! ## Buffers handed over -/

theorem withBuffer_like (h : s.Like K t) {b c : Buffer} (hbuffer : b.Like K c) :
    (s.withBuffer b).Like K (t.withBuffer c) := by
  refine { h with units := ?_ }
  simp only [State.withBuffer]
  rcases forall₂_cases h.units with
    ⟨hs, ht⟩ | ⟨unit, outer, unit', outer', hs, ht, hunit, houter⟩ <;>
    rw [hs, ht]
  · exact .nil
  · exact .cons { hunit with buffer := hbuffer } houter

theorem bufferOr_like (h : s.Like K t) {b c : Buffer} (hbuffer : b.Like K c) :
    (s.bufferOr b).Like K (t.bufferOr c) := by
  simp only [State.bufferOr]
  rcases forall₂_cases h.units with
    ⟨hs, ht⟩ | ⟨unit, outer, unit', outer', hs, ht, hunit, houter⟩ <;>
    rw [hs, ht]
  · exact hbuffer
  · exact hunit.buffer

theorem Restored.withBuffer {buffer : Buffer} (h : Restored (s.withBuffer buffer) t) :
    Restored s t := by
  have hidentity : (s.withBuffer buffer).units.map Construction.identity
      = s.units.map Construction.identity := by
    unfold State.withBuffer
    cases s.units <;> rfl
  have htail : (s.withBuffer buffer).units.tail = s.units.tail := by
    unfold State.withBuffer
    cases s.units <;> rfl
  exact { h with units := h.units.trans hidentity, outerUnits := h.outerUnits.trans htail }

theorem Hosted.withBuffer (h : Hosted s) (buffer : Buffer) : Hosted (s.withBuffer buffer) := by
  have hunits : (s.withBuffer buffer).units.length = s.units.length ∧
      (s.withBuffer buffer).units.tail = s.units.tail := by
    unfold State.withBuffer
    cases s.units <;> exact ⟨rfl, rfl⟩
  exact ⟨hunits.1 ▸ h.depth, hunits.2 ▸ h.begins, h.bounded⟩

/-! ## Running `begin` blocks -/

theorem constructing?_like (h : s.Like K t) : s.constructing? = t.constructing? := by
  unfold State.constructing?
  rcases forall₂_cases h.units with ⟨hs, ht⟩ | ⟨unit, outer, unit', outer', hs, ht, hunit, _⟩ <;>
    rw [hs, ht]
  exact congrArg some hunit.id

/-- One deeper, a `begin` block of the innermost unit can start. -/
theorem Hosted.entering (h : Hosted s) (levels : Nat) :
    Entering s!"{s.unitName}::BEGIN"
      { s with depth := s.depth + 1, nesting := s.nesting + levels } := by
  obtain ⟨hdepth, hbegins, hbounded⟩ := h
  refine ⟨hdepth, ?_, hbounded⟩
  change _ :: s.begins = s.units.map Construction.beginName
  rw [hbegins]
  cases hunits : s.units with
  | nil =>
      rw [hunits] at hdepth
      cases hdepth
  | cons unit outer =>
      rw [State.unitName, hunits]
      rfl

/-- Once the frame of that block is pushed, depth and units move together again. -/
theorem Entering.pushed {frame : Frame} (h : Entering frame.name s)
    (hfree : ∀ limit, s.calls.limit = some limit → s.calls.depth < limit)
    (hkind : frame.kind = .beginBlock) : Aligned { s with calls := s.calls.pushed frame } := by
  refine ⟨h.depth, ?_, h.bounded.pushed hfree frame⟩
  change State.begins _ = s.units.map Construction.beginName
  rw [← h.begins]
  simp [State.begins, CallStack.pushed, hkind]

theorem Restored.beginBlock {levels : Nat}
    (h : Restored { s with depth := s.depth + 1, nesting := s.nesting + levels } t) :
    Restored s { t with depth := t.depth - 1, nesting := t.nesting - levels } := by
  refine { h with depth := ?_, nesting := ?_ }
  · rw [h.depth]
    rfl
  · rw [h.nesting]
    exact Nat.add_sub_cancel _ _

namespace Alike

/-- Blocks that follow each other do so as `begin` blocks. -/
theorem beginBlock {again again' : Again} (levels : Nat) {b c : Block} {p q : Span}
    (hspan : p.Like K q) (h : Alike K (again (.block b)) (again' (.block c))) :
    Sim (running K) (hosted K) (beginBlock again levels b p) (beginBlock again' levels c q) := by
  have hinner : ∀ s t : State, s.Like K t → Sim (running K) (entering K s!"{s.unitName}::BEGIN")
      (Interpreter.inCodeOf s.constructing? (Interpreter.inFrame
        ⟨s!"{s.unitName}::BEGIN", .beginBlock, some p⟩ none (do let _ ← again (.block b))))
      (Interpreter.inCodeOf t.constructing? (Interpreter.inFrame
        ⟨s!"{t.unitName}::BEGIN", .beginBlock, some q⟩ none (do let _ ← again' (.block c)))) := by
    intro s t hs
    rw [constructing?_like hs, unitName hs]
    refine inCodeOf _ (fun s unit h ha => { h ha with }) ?_
    refine withFrame (B := aligned K) (fun _ => ⟨rfl, rfl, .some hspan⟩)
      (fun _ hfree h ha => (h ha).pushed hfree rfl) ?_
    exact traced (inDetachedScope none (h.bind fun _ _ _ => .pure rfl))
  refine ⟨fun s u hu => ?_, fun {s t} hs hosted => ?_⟩
  · exact (hinner u u (.refl u)).left_moves (fun hv => hu.trans hv.beginBlock)
      { u with depth := u.depth + 1, nesting := u.nesting + levels } rfl
  · have hentered : Matched K { s with depth := s.depth + 1, nesting := s.nesting + levels }
        { t with depth := t.depth + 1, nesting := t.nesting + levels } :=
      { hs with like := { hs.like with
          depth := congrArg (· + 1) hs.like.depth
          nesting := congrArg (· + levels) hs.like.nesting } }
    exact (hinner s t hs.like).left hentered (fun ha => (hosted ha).entering levels) (fun h => h)
      fun {u v} hu => { hu with like := { hu.like with
        depth := congrArg (· - 1) hu.like.depth
        nesting := congrArg (· - levels) hu.like.nesting } }

/-! ## The host -/

variable {again again' : Again} {rounds more : Nat}

theorem resolve (name : String) {p q : Span} (hspan : p.Like K q) :
    Parser.Alike K (Parser.resolve (host rounds again) name p)
      (Parser.resolve (host (rounds + more) again') name q) := by
  refine Sim.modifyGet (fun s => ?_) fun {s t} hs _ => .inr ?_
  · simp only [host]
    split
    · exact .refl _
    · exact { Restored.refl s.host with }
  · obtain ⟨hbuffer, hscopes, hhost⟩ := hs
    simp only [host, hscopes]
    split
    · exact ⟨.lexical _ hspan, hbuffer, rfl, hhost⟩
    · refine ⟨?_, hbuffer, rfl, { hhost with like := { hhost.like with
        globals := hhost.like.globals.ensure name } }⟩
      rw [hhost.like.globals.cell]
      exact .global _ hspan

theorem installSub (name : String) {f g : Function} (hfunction : f.Like K g) :
    Parser.Alike K (Parser.installSub (host rounds again) name f)
      (Parser.installSub (host (rounds + more) again') name g) := by
  refine Sim.update (fun s => { Restored.refl s.host with }) fun {s t} hs _ => .inr ?_
  obtain ⟨hbuffer, hscopes, hhost⟩ := hs
  refine ⟨hbuffer, hscopes, { hhost with like := { hhost.like with globals := ?_, nextId := ?_ } }⟩
  · simp only [host]
    rw [hhost.like.nextId, constructing?_like hhost.like]
    exact hhost.like.globals.define name (.sub _ _ _ _ hfunction)
  · exact congrArg (· + 1) hhost.like.nextId

/-- A parser runs `begin` blocks on the state with its buffer in the innermost unit. -/
theorem runBegin_apply (left : Nat) (body : Block) (span : Span) (p : Parser.State State) :
    Parser.runBegin (host rounds again) left body span p =
      match Interpreter.beginBlock again (rounds - left) body span (p.host.withBuffer p.buffer) with
      | .value a s => .value a ⟨s.bufferOr p.buffer, p.scopes, s⟩
      | .error e s => .error (.failedBegin span e none) ⟨s.bufferOr p.buffer, p.scopes, s⟩
      | .cutOff => .cutOff := by
  simp only [Parser.runBegin, host_runBegin]
  cases Interpreter.beginBlock again (rounds - left) body span (p.host.withBuffer p.buffer) <;> rfl

theorem runBegin (left : Nat) {b c : Block} {p q : Span} (hspan : p.Like K q)
    (h : Alike K (again (.block b)) (again' (.block c))) :
    Parser.Alike K (Parser.runBegin (host rounds again) left b p)
      (Parser.runBegin (host (rounds + more) again') (left + more) c q) := by
  have hblock := beginBlock (rounds - left) hspan h
  refine ⟨fun s u hu => ?_, fun {s t} hs hosted => ?_⟩
  · rw [runBegin_apply]
    cases hrun : Interpreter.beginBlock again (rounds - left) b p (u.host.withBuffer u.buffer) with
    | cutOff => trivial
    | value a v => exact Restored.trans hu (hblock.moves_value hrun).withBuffer
    | error e v => exact Restored.trans hu (hblock.moves_error hrun).withBuffer
  · obtain ⟨hbuffer, hscopes, hhost⟩ := hs
    have hhanded : Matched K (s.host.withBuffer s.buffer) (t.host.withBuffer t.buffer) :=
      { hhost with like := withBuffer_like hhost.like hbuffer }
    have hguard := fun ha => (hosted ha).withBuffer s.buffer
    rw [runBegin_apply, runBegin_apply, Nat.add_sub_add_right]
    cases hrun : Interpreter.beginBlock again (rounds - left) b p (s.host.withBuffer s.buffer) with
    | cutOff => trivial
    | value a u =>
        rcases hblock.value hhanded hguard hrun with hloud | ⟨a', u', hrun', ha, hu⟩
        · exact .inl hloud
        · rw [hrun']
          exact .inr ⟨a', _, rfl, ha, bufferOr_like hu.like hbuffer, hscopes, hu⟩
    | error e u =>
        rcases hblock.error hhanded hguard hrun with hloud | ⟨e', u', hrun', he, hu⟩
        · exact .inl hloud
        · rw [hrun']
          exact .inr ⟨_, _, rfl, .failedBegin he hspan, bufferOr_like hu.like hbuffer, hscopes, hu⟩

end Alike

theorem NestedAlike.host {again again' : Again} (h : NestedAlike K again again')
    (rounds more : Nat) :
    Parser.HostsAlike K more (host rounds again) (host (rounds + more) again') where
  resolve name _ _ hspan := Alike.resolve name hspan
  install name _ _ hfunction := Alike.installSub name hfunction
  begins left _ _ _ _ hbody hspan := Alike.runBegin left hspan (h.block hbody)

/-! ## Constructing a unit -/

theorem nextUnit_like (h : s.Like K t) : s.records.nextId = t.records.nextId :=
  congrArg UnitId.mk h.records.length_eq

theorem enterUnit_like (h : s.Like K t) (name : String) (origin : UnitOrigin)
    (path : Option String) (source : String) :
    (s.enterUnit name origin path source).Like K (t.enterUnit name origin path source) := by
  refine { h with units := .cons ⟨.refl _, rfl, rfl, nextUnit_like h⟩ h.units, records := ?_ }
  simp only [State.enterUnit, UnitTable.push, TwoPhase.Like, Array.toList_push]
  exact forall₂_append h.records (.cons (UnitRecord.Like.mk rfl rfl rfl rfl fun _ => rfl) .nil)

theorem Aligned.enterUnit (h : Aligned s) (name : String) (origin : UnitOrigin)
    (path : Option String) (source : String) : Hosted (s.enterUnit name origin path source) :=
  ⟨congrArg (· + 1) h.depth, h.begins, h.bounded⟩

theorem leaveUnit_like (h : s.Like K t) (id : UnitId) {text text' : String}
    (htext : K.exact → text = text') : (s.leaveUnit id text).Like K (t.leaveUnit id text') := by
  refine { h with units := forall₂_tail h.units, records := ?_ }
  simp only [State.leaveUnit, UnitTable.finish, TwoPhase.Like, Array.toList_modify]
  refine forall₂_modify h.records (fun hrecord => ?_) _
  exact UnitRecord.Like.mk hrecord.name hrecord.path hrecord.origin hrecord.given htext

theorem Restored.leaveUnit {name : String} {origin : UnitOrigin} {path : Option String}
    {source : String} (h : Restored (s.enterUnit name origin path source) t) (id : UnitId)
    (text : String) : Restored s (t.leaveUnit id text) := by
  have hunits : t.units.tail = s.units := h.outerUnits
  exact { h with
    units := congrArg (List.map Construction.identity) hunits
    outerUnits := congrArg List.tail hunits }

namespace Alike

variable {again again' : Again}

/-- Constructions follow each other: they parse texts with the same words. -/
theorem construct (h : NestedAlike K again again') (rounds more : Nat) (name : String)
    (origin : UnitOrigin) (path : Option String) (source : String) :
    Sim (running K) (aligned K) (Interpreter.construct rounds again name origin path source)
      (Interpreter.construct (rounds + more) again' name origin path source) := by
  have hparse := Parser.runUnit_alike (h.host rounds more) rounds
  refine ⟨fun s u hu => ?_, fun {s t} hs hA => ?_⟩
  · rw [construct_apply]
    cases hrun : Parser.runUnit (Interpreter.host rounds again) rounds
        (.start source (u.enterUnit name origin path source)) with
    | cutOff => trivial
    | value body p =>
        have hmoves := hparse.moves_value hrun
        exact hu.trans (Restored.leaveUnit hmoves _ _)
    | error e p =>
        have hmoves := hparse.moves_error hrun
        exact (hu.trans (Restored.leaveUnit hmoves _ _)).trans (unwindTo_moves _ _)
  · -- both units are entered with the same text; what is spliced in later has the same words
    have hentered : Matched K (s.enterUnit name origin path source)
        (t.enterUnit name origin path source) :=
      { hs with like := enterUnit_like hs.like name origin path source }
    have hstart : (Parser.parsing K).Rel (.start source (s.enterUnit name origin path source))
        (.start source (t.enterUnit name origin path source)) := ⟨.refl _, rfl, hentered⟩
    have hguard : (Parser.hosted K).Holds (.start source (s.enterUnit name origin path source)) :=
      fun ha => (hA ha).enterUnit name origin path source
    rw [construct_apply, construct_apply]
    rw [← nextUnit_like hs.like, ← hs.like.depth]
    cases hrun : Parser.runUnit (Interpreter.host rounds again) rounds
        (.start source (s.enterUnit name origin path source)) with
    | cutOff => trivial
    | value body p =>
        obtain ⟨buffer, scopes, u⟩ := p
        rcases hparse.value hstart hguard hrun with
          hloud | ⟨body', ⟨buffer', _, u'⟩, hrun', hbody, hbuffer, _, hu⟩
        · -- what was loud in the parser stays loud, since nothing is taken back
          exact .inl hloud
        · have htext : K.exact → buffer.source = buffer'.source :=
            fun hexact => congrArg _ (hbuffer.eq hexact)
          rw [hrun']
          refine .inr ⟨_, _, rfl, ⟨rfl, rfl, hbody, htext, rfl⟩, ?_⟩
          exact { hu with like := leaveUnit_like hu.like _ htext }
    | error e p =>
        obtain ⟨buffer, scopes, u⟩ := p
        rcases hparse.error hstart hguard hrun with
          hloud | ⟨e', ⟨buffer', _, u'⟩, hrun', he, hbuffer, _, hu⟩
        · exact .inl ((unwindTo_moves _ _).loud hloud)
        · have htext : K.exact → buffer.source = buffer'.source :=
            fun hexact => congrArg _ (hbuffer.eq hexact)
          rw [hrun']
          refine .inr ⟨_, _, rfl, he.inUnit _, ?_⟩
          exact unwindTo_like { hu with like := leaveUnit_like hu.like _ htext } _

/-! ## Constructing at run time -/

variable (h : NestedAlike K again again') (rounds more : Nat)

include h

theorem execute {unit unit' : CompiledUnit} (hunit : unit.Like K unit') :
    Alike K (Interpreter.execute again unit) (Interpreter.execute again' unit') := by
  unfold Interpreter.execute
  rw [hunit.name, hunit.id]
  refine Sim.bind (α := Flow) ?_ fun flow flow' hflow => .pure (Flow.Like.value hflow)
  refine withFrame (B := aligned K) (fun _ => ⟨rfl, rfl, .none⟩)
    (aligned_pushed fun hkind => nomatch hkind) ?_
  exact inCodeOf_aligned _ (inDetachedScope none (h.block hunit.body))

theorem constructNow (name : String) (origin : UnitOrigin) (path : Option String)
    (source : String) :
    Alike K (Interpreter.constructNow rounds again name origin path source)
      (Interpreter.constructNow (rounds + more) again' name origin path source) :=
  (construct h rounds more name origin path source).mapError fun hs he =>
    .construction he fun hexact hframes => congrArg CallStack.frames (hs.calls.eq hexact hframes)

theorem evalString (text : String) : Alike K (Interpreter.evalString rounds again text)
    (Interpreter.evalString (rounds + more) again' text) :=
  (constructNow h rounds more _ _ _ _).bind fun _ _ hunit => execute h hunit

/-! ## Modules -/

omit h in
theorem findModuleFile (name : String) (dirs : List String) :
    Alike K (Interpreter.findModuleFile name dirs) (Interpreter.findModuleFile name dirs) := by
  induction dirs with
  | nil => exact raise_self _
  | cons dir dirs ih =>
      refine Sim.bind ?_ fun _ _ _ => .get fun s t hs => ?_
      · refine Sim.update (fun s => { Restored.refl s with }) fun {s t} hs _ => .inr ?_
        exact { hs with
          like := { hs.like with consulted := congrArg (List.cons _) hs.like.consulted } }
      · rw [hs.files]
        split
        · exact .pure (like_refl K _)
        · exact raise_self _
        · exact ih

omit h in
theorem setModule (name : String) (entry : Option ModuleEntry) :
    Alike K (modify (·.setModule name entry)) (modify (·.setModule name entry)) := by
  refine Sim.update (fun s => { Restored.refl s with }) fun {s t} hs _ => .inr ?_
  refine { hs with like := { hs.like with modules := ?_ } }
  simp only [State.setModule, hs.like.modules]

theorem load (name : String) (path : Option String) (source : String) (entry : Option ModuleEntry) :
    Alike K (Interpreter.load rounds again name path source entry)
      (Interpreter.load (rounds + more) again' name path source entry) := by
  refine (setModule name _).bind fun _ _ _ => ?_
  refine Sim.bind
    ((constructNow h rounds more _ _ _ _).bind fun _ _ hunit => execute h hunit).attempt
    fun result result' hresult => ?_
  cases result <;> cases result'
  · exact (setModule name _).bind fun _ _ _ => .throw hresult
  · exact hresult.elim
  · exact hresult.elim
  · exact .pure (like_refl K _)

theorem require (name : String) : Alike K (Interpreter.require rounds again name)
    (Interpreter.require (rounds + more) again' name) := by
  refine Sim.get fun s t hs => ?_
  rw [hs.modules, hs.modulePaths]
  split
  · exact .pure (like_refl K _)
  · exact load h rounds more _ _ _ _
  · refine (findModuleFile name _).bind fun found found' hfound => ?_
    obtain ⟨path, source⟩ := found
    obtain ⟨path', source'⟩ := found'
    obtain ⟨rfl, rfl⟩ : path = path' ∧ source = source' := hfound
    exact load h rounds more _ _ _ _

end Alike

end TwoPhase.Interpreter
