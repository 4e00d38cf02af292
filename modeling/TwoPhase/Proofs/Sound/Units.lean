import TwoPhase.Proofs.Sound.State

/-!
# Units and hooks of sound states

What is done to units under construction keeps their settled texts.  Splices go in behind the
cursor, so they change no text before it.  A unit that is entered has nothing settled, and one that
is left has all of its text settled.

What is put off is a value like any other, from the pending hooks to the lists of blocks that wait
for an exit.
-/

namespace TwoPhase.Interpreter.State

variable {s t : State} {id : UnitId} {floor : Nat} {v : Value} {text : List Char}
  {unit : Construction} {outer : List Construction}

/-! ## Splices -/

theorem settled?_cons (hunits : s.units = unit :: outer) :
    s.settled? id =
      if unit.id = id then some unit.buffer.behind
      else State.settled? { s with units := outer } id := by
  simp only [settled?, hunits, List.find?_cons]
  by_cases hid : unit.id = id <;> simp [hid]

/-- The innermost unit may have consumed more. -/
theorem Settles.buffer (hunits : s.units = unit :: outer) {buffer : Buffer}
    (hbuffer : unit.buffer.behind <+: buffer.behind) (warnings : Array UnitWarning) :
    s.Settles { s with units := { unit with buffer } :: outer, warnings } := by
  intro id text hsettled
  rw [settled?_cons hunits] at hsettled
  rw [settled?_cons (s := { s with units := { unit with buffer } :: outer, warnings }) rfl]
  split at hsettled
  · rename_i hid
    cases hsettled
    exact ⟨buffer.behind, if_pos hid, hbuffer⟩
  · rename_i hid
    exact ⟨text, (if_neg hid).trans hsettled, List.prefix_rfl⟩

theorem After.buffer (hs : s.Sound) (hunits : s.units = unit :: outer) {buffer : Buffer}
    (hbuffer : unit.buffer.behind <+: buffer.behind) (warnings : Array UnitWarning) :
    s.After floor { s with units := { unit with buffer } :: outer, warnings } :=
  .step hs (.refl s.env) (.buffer hunits hbuffer warnings) (by simp [hunits]) rfl rfl
    fun _ hv => .inl hv

theorem After.injected {text : String} (hs : s.Sound) (h : Injected text s t) :
    s.After floor t := by
  obtain ⟨unit, outer, warnings, hunits, _, rfl⟩ := h
  refine .buffer hs hunits ?_ warnings
  cases s.deferral.mode <;> exact List.prefix_rfl

/-! ## Hooks -/

theorem holds_add {p : Pending DeferredBlock} {depth : Nat} {hook : Hook DeferredBlock}
    (h : (p.add depth hook).2.Holds v) : p.Holds v ∨ v = hook.block.callable := by
  obtain ⟨fn, other, hother, rfl⟩ := h
  by_cases hdepth : depth = 0
  · simp only [Pending.add, hdepth, if_true] at hother
    exact .inl ⟨fn, other, hother, rfl⟩
  cases hslot : p.dispatchAt? depth with
  | none =>
      rw [Pending.hooks_add_open hook hdepth hslot] at hother
      split at hother
      · rw [Array.mem_singleton.1 hother]
        exact .inr rfl
      · exact .inl ⟨fn, other, hother, rfl⟩
  | some joined =>
      rw [Pending.add_join hook hdepth hslot] at hother
      simp only [Pending.hooks, Array.getD_eq_getD_getElem?, Array.getElem?_modify] at hother
      split at hother
      · cases hlist : p.lists[fn.list]? with
        | none => simp [hlist] at hother
        | some hooks =>
            simp only [hlist, Option.map_some, Option.getD_some, Array.mem_push] at hother
            rcases hother with hold | rfl
            · refine .inl ⟨fn, other, ?_, rfl⟩
              simpa [Pending.hooks, hlist] using hold
            · exact .inr rfl
      · refine .inl ⟨fn, other, ?_, rfl⟩
        simpa [Pending.hooks] using hother

theorem holds_of_lists {p q : Pending DeferredBlock} (hlists : q.lists = p.lists)
    (h : q.Holds v) : p.Holds v := by
  obtain ⟨fn, hook, hhook, rfl⟩ := h
  rw [Pending.hooks, hlists] at hhook
  exact ⟨fn, hook, hhook, rfl⟩

/-- A step that changes globals and hooks only. -/
theorem After.redefer (hs : s.Sound) {g : Globals} {d : Deferral DeferredBlock} (event : Event)
    (hglobals : ∀ v, g.Holds v → s.globals.Holds v ∨ v.Sound s)
    (hpending : ∀ v, d.pending.Holds v → s.deferral.pending.Holds v ∨ v.Sound s) :
    s.After floor (State.record { s with globals := g, deferral := d } event) := by
  refine write hs rfl rfl rfl rfl fun w hw => ?_
  cases hw with
  | global h => exact (hglobals w h).imp_left .global
  | pending h => exact (hpending w h).imp_left .pending
  | lexical h => exact .inl (.lexical h)
  | waiting hblocks h => exact .inl (.waiting hblocks h)
  | kept h => exact .inl (.kept h)

theorem After.putOff {hook : Hook DeferredBlock} (hs : s.Sound)
    (hhook : hook.block.callable.Sound s) (h : PutOff hook s t) : s.After floor t := by
  cases h with
  | joined fn hdepth hslot =>
      exact .redefer hs _ (fun _ hv => .inl hv) fun _ hv =>
        (holds_add hv).imp_right (by rintro rfl; exact hhook)
  | @opened t hdepth hslot hinjected =>
      have hafter : s.After floor t := .injected hs hinjected
      obtain ⟨unit, outer, warnings, _, _, rfl⟩ := hinjected
      refine hafter.trans (.redefer hafter.sound _ (fun _ hv => holds_dispatchTo hv) fun _ hv => ?_)
      exact (holds_add hv).imp_right (by rintro rfl; exact hhook.outlived hafter.outlived)

theorem After.cleared (hs : s.Sound) (depth : Nat) : s.After floor (s.cleared depth) :=
  .redefer hs _ (fun _ hv => holds_dispatchTo hv) fun _ hv =>
    .inl (holds_of_lists (s.deferral.pending.lists_clear depth) hv)

theorem After.unwindTo (hs : s.Sound) (depth : Nat) : s.After floor (s.unwindTo depth) := by
  have hpending : ∀ v, (s.deferral.pending.unwindTo depth).2.Holds v →
      s.deferral.pending.Holds v ∨ v.Sound s := fun _ hv =>
    .inl (holds_of_lists (s.deferral.pending.lists_unwindTo depth) hv)
  rcases unwindTo_cases depth s with ⟨_, heq⟩ | ⟨_, heq⟩
  · rw [heq]
    exact .redefer hs _ (fun _ hv => .inl hv) hpending
  · rw [heq]
    exact .redefer hs _ (fun _ hv => holds_dispatchTo hv) hpending

/-! ## Waiting blocks and kept values -/

theorem await_exits (s : State) (block : DeferredBlock) :
    (s.await block).exits = s.exits.modifyHead ([block] ++ ·) := by
  rw [await]
  cases s.exits <;> rfl

/-- No more waits then than one block besides those that waited. -/
theorem mem_await {block other : DeferredBlock} {blocks : List DeferredBlock}
    (hblocks : blocks ∈ (s.await block).exits) (h : other ∈ blocks) :
    other = block ∨ ∃ waiting ∈ s.exits, other ∈ waiting := by
  rw [await_exits] at hblocks
  cases hexits : s.exits with
  | nil =>
      rw [hexits] at hblocks
      cases hblocks
  | cons waiting outer =>
      rw [hexits] at hblocks
      rcases List.mem_cons.1 hblocks with rfl | hblocks
      · rcases List.mem_cons.1 h with rfl | h
        · exact .inl rfl
        · exact .inr ⟨waiting, List.mem_cons_self, h⟩
      · exact .inr ⟨blocks, List.mem_cons_of_mem _ hblocks, h⟩

theorem After.openExits (hs : s.Sound) : s.After floor { s with exits := [] :: s.exits } := by
  refine .write hs rfl rfl rfl rfl fun w hw => .inl ?_
  cases hw with
  | waiting hblocks h =>
      rcases List.mem_cons.1 hblocks with rfl | hblocks
      · cases h
      · exact .waiting hblocks h
  | global h => exact .global h
  | lexical h => exact .lexical h
  | pending h => exact .pending h
  | kept h => exact .kept h

theorem After.closeExits (hs : s.Sound) : s.After floor { s with exits := s.exits.tail } := by
  refine .write hs rfl rfl rfl rfl fun w hw => .inl ?_
  cases hw with
  | waiting hblocks h => exact .waiting (List.mem_of_mem_tail hblocks) h
  | global h => exact .global h
  | lexical h => exact .lexical h
  | pending h => exact .pending h
  | kept h => exact .kept h

theorem After.awaitExit (hs : s.Sound) {block : DeferredBlock} (hblock : block.callable.Sound s) :
    s.After floor (s.await block) := by
  refine .write hs rfl rfl rfl rfl fun w hw => ?_
  cases hw with
  | waiting hblocks h =>
      rcases State.mem_await hblocks h with rfl | ⟨waiting, hwaiting, h⟩
      · exact .inr hblock
      · exact .inl (.waiting hwaiting h)
  | global h => exact .inl (.global h)
  | lexical h => exact .inl (.lexical h)
  | pending h => exact .inl (.pending h)
  | kept h => exact .inl (.kept h)

theorem After.keep (hs : s.Sound) (name : String) (hv : v.Sound s) :
    s.After floor { s with kept := s.kept.insert name v } := by
  refine .write hs rfl rfl rfl rfl fun w hw => ?_
  cases hw with
  | kept h =>
      change (s.kept.insert name v)[_]? = some w at h
      rw [Std.TreeMap.getElem?_insert] at h
      split at h
      · cases h
        exact .inr hv
      · exact .inl (.kept h)
  | global h => exact .inl (.global h)
  | lexical h => exact .inl (.lexical h)
  | pending h => exact .inl (.pending h)
  | waiting hblocks h => exact .inl (.waiting hblocks h)

/-! ## Entering and leaving units -/

/-- Only units that were begun have a text. -/
theorem Ordered.index_lt (h : s.Ordered) (hsettled : s.settled? id = some text) :
    id.index < s.records.size := by
  unfold settled? at hsettled
  split at hsettled
  · rename_i unit hfind
    have hmem := List.mem_of_find?_eq_some hfind
    have hid : unit.id = id := by simpa using List.find?_some hfind
    rw [Ordered, List.pairwise_cons] at h
    exact hid ▸ h.1 _ (List.mem_map_of_mem hmem)
  · obtain ⟨record, hrecord, _⟩ := Option.map_eq_some_iff.1 hsettled
    exact (Array.getElem?_eq_some_iff.1 hrecord).1

theorem settled?_enterUnit (h : s.Ordered) (name : String) (origin : UnitOrigin)
    (path : Option String) (source : String) (hsettled : s.settled? id = some text) :
    (s.enterUnit name origin path source).settled? id = some text := by
  have hlt := h.index_lt hsettled
  have hne : s.records.nextId ≠ id := by
    rintro rfl
    exact absurd hlt (Nat.lt_irrefl _)
  rw [settled?_cons (s := s.enterUnit name origin path source) rfl, if_neg hne]
  have hrecord : (s.records.push ⟨name, path, origin, source, source⟩).get? id
      = s.records.get? id := by
    simp only [UnitTable.get?, UnitTable.push, Array.getElem?_push]
    exact if_neg (Nat.ne_of_lt hlt)
  simpa only [settled?, enterUnit, hrecord] using hsettled

/-- A unit that is entered has nothing settled. -/
theorem Sound.enterUnit (hs : s.Sound) (name : String) (origin : UnitOrigin) (path : Option String)
    (source : String) : (s.enterUnit name origin path source).Sound := by
  have hsettles : s.Settles (s.enterUnit name origin path source) := fun _ text h =>
    ⟨text, settled?_enterUnit hs.ordered name origin path source h, List.prefix_rfl⟩
  refine hs.next ⟨.refl s.env, hsettles⟩ (fun _ hv => .inl hv) ?_
  have hordered := hs.ordered
  have hsize : (s.records.push ⟨name, path, origin, source, source⟩).size = s.records.size + 1 := by
    simp [UnitTable.size, UnitTable.push]
  rw [Ordered] at hordered ⊢
  refine List.pairwise_cons.2 ⟨fun i hi => ?_, hordered⟩
  change (s.records.push ⟨name, path, origin, source, source⟩).size > i
  rw [hsize]
  rcases List.mem_cons.1 hi with rfl | hi
  · exact Nat.lt_succ_self _
  · exact Nat.lt_succ_of_lt ((List.pairwise_cons.1 hordered).1 i hi)

theorem records_finish_size (records : UnitTable) (id : UnitId) (text : String) :
    (records.finish id text).size = records.size := by
  simp [UnitTable.finish, UnitTable.size]

/-- All of its text is settled when a unit is left. -/
theorem settled?_leaveUnit (hs : s.Ordered) (hunits : s.units = unit :: outer) (text : String) :
    (s.leaveUnit unit.id text).settled? unit.id = some text.toList := by
  have hordered := hs
  rw [Ordered, hunits, List.map_cons, List.pairwise_cons, List.pairwise_cons] at hordered
  have hnone : outer.find? (·.id = unit.id) = none := by
    refine List.find?_eq_none.2 fun other hother => ?_
    have hlt := hordered.2.1 _ (List.mem_map_of_mem hother)
    intro heq
    rw [of_decide_eq_true heq] at hlt
    exact absurd hlt (Nat.lt_irrefl _)
  have hlt : unit.id.index < s.records.units.size := hordered.1 _ List.mem_cons_self
  simp only [settled?, leaveUnit, hunits, List.tail_cons, hnone, UnitTable.get?, UnitTable.finish,
    Array.getElem?_modify, if_true, Array.getElem?_eq_getElem hlt, Option.map_some]

theorem Settles.leaveUnit (hs : s.Ordered) (hunits : s.units = unit :: outer) {text : String}
    (htext : unit.buffer.behind <+: text.toList) : s.Settles (s.leaveUnit unit.id text) := by
  intro id before hbefore
  by_cases hid : unit.id = id
  · subst hid
    rw [settled?_cons hunits, if_pos rfl] at hbefore
    cases hbefore
    exact ⟨text.toList, settled?_leaveUnit hs hunits text, htext⟩
  · rw [settled?_cons hunits, if_neg hid] at hbefore
    refine ⟨before, ?_, List.prefix_rfl⟩
    have hne : unit.id.index ≠ id.index := fun h => hid (congrArg UnitId.mk h)
    have hrecord : (s.records.finish unit.id text).get? id = s.records.get? id := by
      simp only [UnitTable.get?, UnitTable.finish, Array.getElem?_modify]
      exact if_neg hne
    simpa only [settled?, State.leaveUnit, hunits, List.tail_cons, hrecord] using hbefore

/-- What becomes of a state while a unit is constructed. -/
theorem After.leaveUnit {name : String} {origin : UnitOrigin} {path : Option String}
    {source text : String} (hs : s.Sound)
    (h : (s.enterUnit name origin path source).After floor t) (hunits : t.units = unit :: outer)
    (htext : unit.buffer.behind <+: text.toList) : s.After floor (t.leaveUnit unit.id text) := by
  have hsettles : t.Settles (t.leaveUnit unit.id text) := .leaveUnit h.sound.ordered hunits htext
  refine ⟨h.sound.next ⟨.refl t.env, hsettles⟩ (fun _ hv => .inl hv) ?_, h.env, ?_, ?_,
    h.currentUnit⟩
  · have hordered := h.sound.ordered
    rw [Ordered, hunits, List.map_cons, List.pairwise_cons] at hordered
    rw [Ordered]
    change ((t.records.finish unit.id text).size :: t.units.tail.map (·.id.index)).Pairwise (· > ·)
    rw [records_finish_size, hunits, List.tail_cons]
    exact List.pairwise_cons.2
      ⟨fun i hi => hordered.1 i (List.mem_cons_of_mem _ hi), (List.pairwise_cons.1 hordered.2).2⟩
  · refine Settles.trans (t := s.enterUnit name origin path source) ?_ (h.settles.trans hsettles)
    exact fun _ text hsettled =>
      ⟨text, settled?_enterUnit hs.ordered name origin path source hsettled, List.prefix_rfl⟩
  · change t.units.tail.map (·.id) = s.units.map (·.id)
    rw [List.map_tail, h.units]
    rfl

end TwoPhase.Interpreter.State
