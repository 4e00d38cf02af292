import TwoPhase.Proofs.Interpreter.Within

/-!
# What splices cannot reach

Code can splice text into the innermost unit under construction only, and if that unit is an
evaluated string, it cannot splice any text in.  So the parser of an evaluated string reads the
string that it was given, whatever its blocks do, and that text is recorded in the end.

The record of a unit is touched twice, when its construction starts and when it ends.  All that
happens in between adds records behind it and leaves those in front alone, hence the invariant
`Confined`: code leaves all records that it finds, and the records it adds for evaluated strings
keep the text that was given.
-/

namespace TwoPhase.Interpreter

open Run (Triple Keeps)

variable {α : Type} {s t u : State}

/-! ## The invariant -/

/-- The same units, but for splices into the innermost one, unless it is an evaluated string. -/
def Shielded : List Construction → List Construction → Prop
  | [], us => us = []
  | unit :: outer, us => ∃ buffer, us = { unit with buffer } :: outer ∧ unit.buffer.Spliced buffer ∧
      (unit.origin = .stringEval → buffer = unit.buffer)

theorem Shielded.refl (us : List Construction) : Shielded us us := by
  cases us with
  | nil => rfl
  | cons unit outer => exact ⟨unit.buffer, rfl, .refl, fun _ => rfl⟩

theorem Shielded.trans {us vs ws : List Construction} (h : Shielded us vs) (h' : Shielded vs ws) :
    Shielded us ws := by
  cases us with
  | nil =>
      obtain rfl : vs = [] := h
      exact h'
  | cons unit outer =>
      obtain ⟨middle, rfl, hfirst, hsealed⟩ := h
      obtain ⟨last, rfl, hsecond, hsealed'⟩ := h'
      refine ⟨last, rfl, hfirst.trans hsecond, fun horigin => ?_⟩
      exact (hsealed' horigin).trans (hsealed horigin)

/-- Every evaluated string is recorded as it was given. -/
def State.Verbatim (s : State) : Prop :=
  ∀ record ∈ s.records.units.toList, record.origin = .stringEval → record.text = record.given

/-- What running code may do to units and their records. -/
structure Confined (s t : State) : Prop where
  units : Shielded s.units t.units
  records : s.records.units.toList <+: t.records.units.toList
  verbatim : s.Verbatim → t.Verbatim

namespace Confined

theorem of_records (hunits : Shielded s.units t.units) (hrecords : t.records = s.records) :
    Confined s t :=
  ⟨hunits, hrecords ▸ List.prefix_rfl, fun h => by rwa [State.Verbatim, hrecords]⟩

theorem refl (s : State) : Confined s s := .of_records (.refl _) rfl

theorem trans (h : Confined s t) (h' : Confined t u) : Confined s u :=
  ⟨h.units.trans h'.units, h.records.trans h'.records, fun hs => h'.verbatim (h.verbatim hs)⟩

theorem of_alike (h : s.Alike t) : Confined s t := by
  have hunits : t.units = s.units := congrArg Seen.units h
  exact .of_records (hunits ▸ .refl _) (congrArg Seen.records h)

theorem stable (s : State) : Stable (Confined s) := ⟨fun h halike => h.trans (.of_alike halike)⟩

/-! ## The operations of deferral -/

theorem of_injected {text : String} (h : Injected text s t) : Confined s t := by
  obtain ⟨unit, outer, warnings, hunits, horigin, rfl⟩ := h
  refine .of_records ?_ rfl
  rw [hunits]
  exact ⟨_, rfl, .insert .refl _ _, fun heval => absurd heval horigin⟩

theorem of_putOff {hook : Hook DeferredBlock} (h : PutOff hook s t) : Confined s t := by
  cases h with
  | joined fn hdepth hslot => exact .of_records (.refl _) rfl
  | opened hdepth hslot hinjected =>
      exact (of_injected hinjected).trans (.of_records (.refl _) rfl)

theorem defer (callable : Value) (after : Bool) : Keeps (Confined s) (defer callable after) := by
  intro t ht
  rcases defer_cases callable after t with ⟨fault, h, _⟩ | ⟨hook, u, hput, h, _⟩ <;> rw [h]
  · exact ht
  · exact ht.trans (of_putOff hput)

theorem splice (text : String) : Keeps (Confined s) (lexStuff text) := by
  intro t ht
  rcases lexStuff_cases text t with ⟨e, h⟩ | ⟨u, hinjected, h⟩ <;> rw [h]
  · exact ht
  · exact (ht.trans (of_injected hinjected)).trans (.of_records (.refl _) rfl)

theorem clear (depth : Nat) : Keeps (Confined s) (clearDepth depth) := by
  intro t ht
  rcases clearDepth_cases depth t with ⟨e, h⟩ | ⟨fn, hslot, h⟩ <;> rw [h]
  · exact ht
  · exact ht.trans (.of_records (.refl _) rfl)

theorem unwindTo (depth : Nat) (s : State) : Confined s (s.unwindTo depth) := by
  rcases unwindTo_cases depth s with ⟨_, h⟩ | ⟨_, h⟩ <;>
  · rw [h]
    exact .of_records (.refl _) rfl

end Confined

/-! ## Parsing -/

/-- A state of the host while it parses a unit whose record was added as `entry`, with `b` as the
buffer of the parser. -/
structure Entered (s : State) (entry : UnitRecord) (b : Buffer) (t : State) : Prop where
  units : ∃ unit, t.units = unit :: s.units ∧ unit.origin = entry.origin
  text : entry.origin = .stringEval → b.source = entry.given
  records : s.records.units.toList ++ [entry] <+: t.records.units.toList
  verbatim : s.Verbatim → t.Verbatim

namespace Entered

variable {entry : UnitRecord} {b : Buffer} {rounds : Nat} {again : Again}

/-- Consuming a token keeps the text. -/
theorem advance (h : Entered s entry b t) : Entered s entry b.next.2 t := by
  refine ⟨h.units, fun heval => ?_, h.records, h.verbatim⟩
  rw [← h.text heval, Buffer.source, Buffer.source, b.chars_next]

/-- A `begin` block gets at the buffer of the parser, but not if the unit is an evaluated string. -/
theorem runBegin (hnested : ∀ s {α : Type} (work : Work α), Keeps (Confined s) (again work))
    (left : Nat) (body : Block) (span : Span) :
    Triple (fun p => Entered s entry p.1 p.2) ((host rounds again).runBegin left body span)
      (fun _ p => Entered s entry p.1 p.2) (fun _ p => Entered s entry p.1 p.2) := by
  rintro ⟨b, t⟩ ht
  obtain ⟨unit, hunits, horigin⟩ := ht.units
  let start : State := { t.withBuffer b with
    depth := t.depth + 1, nesting := t.nesting + (rounds - left) }
  have hstart : start.units = { unit with buffer := b } :: s.units := by
    simp only [start, State.withBuffer]
    rw [hunits]
  refine runBegin_keeps (Confined.stable start) (hnested start _) (.refl start) (fun u hu => ?_)
    (b, t) rfl
  obtain ⟨after, hafter, -, hsealed⟩ : Shielded ({ unit with buffer := b } :: s.units) u.units :=
    hstart ▸ hu.units
  refine ⟨⟨_, hafter, horigin⟩, fun heval => ?_, ht.records.trans hu.records,
    fun hs => hu.verbatim (ht.verbatim hs)⟩
  -- the parser is given back the buffer that it handed over
  have hback : u.bufferOr b = b := by
    rw [State.bufferOr, hafter, hsealed (horigin.trans heval)]
    rfl
  rw [hback]
  exact ht.text heval

theorem parse (hnested : ∀ s {α : Type} (work : Work α), Keeps (Confined s) (again work))
    (rounds bound : Nat) :
    Triple (Parser.Holds (Entered s entry)) (Parser.runUnit (host rounds again) bound)
      (fun _ p => Entered s entry p.buffer p.host)
      (fun _ p => Entered s entry p.buffer p.host) := by
  have hrespects : ∀ bound, (∀ {α : Type} (goal : Parser.Goal α),
      Triple (Parser.Before (Entered s entry) goal) (Parser.run (host rounds again) bound goal)
        (fun _ => Parser.Holds (Entered s entry)) (fun _ p => Entered s entry p.buffer p.host)) →
      Parser.Respects (host rounds again) bound (Parser.run (host rounds again) bound)
        (Entered s entry) (Entered s entry) := by
    intro bound ih
    exact {
      nested := ih
      weak := id
      looks := fun ht => ⟨ht.units, ht.text, ht.records, ht.verbatim⟩
      advances := fun ht _ => ht.advance
      resolves := fun _ ht => ⟨ht.units, ht.text, ht.records, ht.verbatim⟩
      installs := fun _ _ ht => ⟨ht.units, ht.text, ht.records, ht.verbatim⟩
      begins := Parser.beginStmt_holds (ih (.block .beginBlock)) (fun _ _ ht _ => ht.advance)
        (runBegin hnested bound) }
  exact (Parser.runUnit_keeps hrespects bound).weaken (fun _ => id) (fun _ _ hp => hp.1.keeps)
    (fun _ _ => id)

/-- A unit is entered with its record last. -/
theorem enter (s : State) (name : String) (origin : UnitOrigin) (path : Option String)
    (source : String) : Entered s ⟨name, path, origin, source, source⟩ (.ofString source)
      (s.enterUnit name origin path source) := by
  have hrecords : (s.enterUnit name origin path source).records.units.toList
      = s.records.units.toList ++ [⟨name, path, origin, source, source⟩] := by
    simp [State.enterUnit, UnitTable.push]
  refine ⟨⟨_, rfl, rfl⟩, fun _ => ?_, hrecords ▸ List.prefix_rfl, fun hs record hrecord => ?_⟩
  · simp [Buffer.source, Buffer.chars, Buffer.ofString]
  · rw [hrecords] at hrecord
    rcases List.mem_append.1 hrecord with hold | hnew
    · exact hs record hold
    · rw [List.mem_singleton.1 hnew]
      exact fun _ => rfl

/-- The record of a unit is behind those it found. -/
theorem modify_entry (first : List UnitRecord) (rest : List UnitRecord)
    (change : UnitRecord → UnitRecord) :
    (first ++ entry :: rest).modify first.length change = first ++ change entry :: rest := by
  induction first with
  | nil => rfl
  | cons record first ih => exact congrArg (record :: ·) ih

/-- The unit is left, with the text of the parser on its record. -/
theorem leave (h : Entered s entry b t) :
    Confined s (t.leaveUnit s.records.nextId b.source) ∧
      (t.leaveUnit s.records.nextId b.source).records.get? s.records.nextId
        = some { entry with text := b.source } := by
  obtain ⟨unit, hunits, horigin⟩ := h.units
  obtain ⟨rest, hrest⟩ := h.records
  -- the record of the unit is found behind those there were when it was entered
  have hrecords : (t.leaveUnit s.records.nextId b.source).records.units.toList
      = s.records.units.toList ++ { entry with text := b.source } :: rest := by
    simp only [State.leaveUnit, UnitTable.finish, UnitTable.nextId, Array.toList_modify, ← hrest,
      List.append_assoc, List.singleton_append]
    exact modify_entry s.records.units.toList rest _
  refine ⟨⟨?_, hrecords ▸ List.prefix_append _ _, fun hs record hrecord heval => ?_⟩, ?_⟩
  · simp only [State.leaveUnit, hunits, List.tail_cons]
    exact .refl _
  · rw [hrecords] at hrecord
    rcases List.mem_append.1 hrecord with hold | hnew
    · exact hs record hold heval
    rcases List.mem_cons.1 hnew with rfl | hlater
    · exact h.text heval
    · -- a unit that was entered later
      have hmem : record ∈ t.records.units.toList := by
        rw [← hrest]
        simp [hlater]
      exact h.verbatim hs record hmem heval
  · rw [UnitTable.get?, ← Array.getElem?_toList, hrecords, UnitTable.nextId,
      ← Array.length_toList, List.getElem?_append_right (Nat.le_refl _), Nat.sub_self]
    rfl

end Entered

/-! ## Constructing and running -/

/-- A unit whose construction started in a state has its record, which for an evaluated string has
the text that was given. -/
def Recorded (s : State) (entry : UnitRecord) (t : State) : Prop :=
  ∃ text, t.records.get? s.records.nextId = some { entry with text } ∧
    (entry.origin = .stringEval → text = entry.given)

/-- A record stays. -/
theorem Recorded.confined {entry : UnitRecord} (h : Recorded s entry t) (hu : Confined t u) :
    Recorded s entry u := by
  obtain ⟨text, hget, hgiven⟩ := h
  obtain ⟨rest, hrest⟩ := hu.records
  refine ⟨text, ?_, hgiven⟩
  rw [UnitTable.get?, ← Array.getElem?_toList] at hget ⊢
  obtain ⟨hlt, -⟩ := List.getElem?_eq_some_iff.1 hget
  rw [← hrest, List.getElem?_append_left hlt, hget]

namespace Confined

variable {rounds : Nat} {again : Again}

theorem construct (hnested : ∀ s {α : Type} (work : Work α), Keeps (Confined s) (again work))
    (name : String) (origin : UnitOrigin) (path : Option String) (source : String) :
    Triple (· = s) (construct rounds again name origin path source)
      (fun _ t => Confined s t ∧ Recorded s ⟨name, path, origin, source, source⟩ t)
      (fun _ t => Confined s t ∧ Recorded s ⟨name, path, origin, source, source⟩ t) := by
  intro s' hs'
  obtain rfl : s = s' := hs'.symm
  have hparse := Entered.parse hnested rounds rounds
    (.start source (s.enterUnit name origin path source))
    ⟨Parser.Plain.nil, Entered.enter s name origin path source⟩
  cases hrun : Interpreter.construct rounds again name origin path source s with
  | cutOff => trivial
  | value unit t =>
      obtain ⟨body, p, hparsed, rfl⟩ := construct_value hrun
      rw [hparsed] at hparse
      -- the unit is left in the same way on both ends; a failure only unwinds slots on top
      obtain ⟨hconfined, hrecord⟩ := hparse.leave
      exact ⟨hconfined, _, hrecord, hparse.text⟩
  | error e t =>
      obtain ⟨e', p, hparsed, rfl⟩ := construct_error hrun
      rw [hparsed] at hparse
      obtain ⟨hconfined, hrecord⟩ := hparse.leave
      have hunwound := unwindTo s.depth (p.host.leaveUnit s.records.nextId p.buffer.source)
      exact ⟨hconfined.trans hunwound, Recorded.confined ⟨_, hrecord, hparse.text⟩ hunwound⟩

theorem respects (bound : Nat)
    (hnested : ∀ s {α : Type} (work : Work α), Keeps (Confined s) (run bound work)) (s : State) :
    Respects bound (run bound) (Confined s) where
  toStable := Confined.stable s
  nested := hnested s
  write _ _ ht := ht.trans (.of_records (.refl _) rfl)
  defer := Confined.defer
  splice := Confined.splice
  clear := Confined.clear
  construct name origin path source t ht :=
    (Confined.construct hnested name origin path source).weaken (fun _ => id)
      (fun _ _ h => ht.trans h.1) (fun _ _ h => ht.trans h.1) t rfl

end Confined

/-- Code leaves the units around the innermost one alone, and the records that it finds. -/
theorem run_confined (bound : Nat) (s : State) (work : Work α) :
    Keeps (Confined s) (run bound work) :=
  run_keeps Confined.respects bound s work

theorem run_confined_respects (bound : Nat) (s : State) :
    Respects bound (run bound) (Confined s) :=
  Confined.respects bound (fun s _ work => run_confined bound s work) s

theorem construct_confined (bound : Nat) (s : State) (name : String) (origin : UnitOrigin)
    (path : Option String) (source : String) :
    Triple (· = s) (construct bound (run bound) name origin path source)
      (fun _ t => Confined s t ∧ Recorded s ⟨name, path, origin, source, source⟩ t)
      (fun _ t => Confined s t ∧ Recorded s ⟨name, path, origin, source, source⟩ t) :=
  Confined.construct (fun s _ work => run_confined bound s work) name origin path source

/-- However the construction and the run of a unit end, the unit is recorded. -/
theorem constructed_recorded (bound : Nat) (name : String) (origin : UnitOrigin)
    (path : Option String) (source : String) (s : State) :
    Triple (· = s) (do
        let unit ← constructNow bound (run bound) name origin path source
        execute (run bound) unit)
      (fun _ => Recorded s ⟨name, path, origin, source, source⟩)
      (fun _ => Recorded s ⟨name, path, origin, source, source⟩) := by
  have hconstruct := construct_confined bound s name origin path source
  refine Triple.bind (Triple.mapError (hconstruct.weaken (fun _ => id) (fun _ _ h => h.2)
    (fun _ _ h => h.2))) fun unit t ht => ?_
  exact ((run_confined_respects bound t).execute unit).weaken (fun _ => id)
    (fun _ _ hu => ht.confined hu) (fun _ _ hu => ht.confined hu) t (.refl t)

/-- However the evaluation of a string ends, the string is recorded as it was given. -/
theorem evalString_recorded (bound : Nat) (text : String) (s : State) :
    Triple (· = s) (evalString bound (run bound) text)
      (fun _ => Recorded s ⟨evalUnitName, none, .stringEval, text, text⟩)
      (fun _ => Recorded s ⟨evalUnitName, none, .stringEval, text, text⟩) :=
  constructed_recorded bound evalUnitName .stringEval none text s

end TwoPhase.Interpreter
