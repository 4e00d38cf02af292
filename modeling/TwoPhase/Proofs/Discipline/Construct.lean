import TwoPhase.Proofs.Discipline.Basic
import TwoPhase.Proofs.Interpreter.Within
import TwoPhase.Proofs.Sound.Parser

/-!
# Construction within a discipline

The parser reads and writes globals, installs subs and runs `begin` blocks, all of which a
discipline allows.  So the construction of a unit keeps the discipline, and so does the load of a
module, which is the one place where a discipline looks at the module table.
-/

namespace TwoPhase.Interpreter

/-! ## The host -/

section

variable (rounds : Nat) (again again' : Again)

/-- Names are resolved without running code, -/
theorem sameGlobals_host : (host rounds again').resolveGlobal = (host rounds again).resolveGlobal :=
  rfl

/-- and so are subs installed. -/
theorem sameSubs_host : (host rounds again').installSub = (host rounds again).installSub := rfl

end

/-! ## Loads -/

/-- Constructs and runs the text of a module. -/
def runModule (rounds : Nat) (again : Again) (name : String) (path : Option String)
    (source : String) : Eval Value := do
  let unit ← constructNow rounds again name .required path source
  execute again unit

/-- A load runs the text of the module, which counts as loaded meanwhile; if that fails, what was
known of the module is put back. -/
theorem load_apply (rounds : Nat) (again : Again) (name : String) (path : Option String)
    (source : String) (entry : Option ModuleEntry) (s : State) :
    load rounds again name path source entry s =
      match runModule rounds again name path source (s.setModule name (some .loaded)) with
      | .value _ t => .value (.bool true) t
      | .error e t => .error e (t.setModule name entry)
      | .cutOff => .cutOff := by
  simp only [load, ← runModule.eq_def, Run.bind_apply, Run.modify_apply, Run.attempt]
  cases runModule rounds again name path source (s.setModule name (some .loaded)) <;> rfl

namespace Discipline

open Run (Agrees Keeps Triple)

variable {P : Value → Prop} {D : Discipline P} {s t : State} {rounds : Nat} {again again' : Again}
  {b : Buffer}

/-- A state with a unit under construction, whose buffer is kept elsewhere. -/
structure Hosts (D : Discipline P) (s : State) : Prop where
  inv : D.Inv s
  units : ∃ unit outer, s.units = unit :: outer

theorem Hosts.leads (hs : D.Hosts s) (hst : D.Leads s t) (hunits : t.units = s.units) :
    D.Leads s t ∧ D.Hosts t :=
  ⟨hst, D.inv hst, hunits ▸ hs.units⟩

/-- A buffer is handed over. -/
theorem leads_withBuffer (hs : D.Inv s) (b : Buffer) : D.Leads s (s.withBuffer b) :=
  D.change hs (.quiet rfl rfl rfl)

namespace Parts

variable (h : D.Parts again again')

include h

/-! ## `begin` blocks -/

theorem beginBlock (hs : D.Inv s) (levels : Nat) (body : Block) (span : Span) :
    D.Runs s (beginBlock again levels body span) (beginBlock again' levels body span)
      fun _ => True := by
  refine .get (.between hs rfl (.quiet rfl rfl rfl) (fun _ => .quiet rfl rfl rfl) fun hentered => ?_)
  refine .inCodeOf hentered fun t ht => .inFrame ht fun u hu => ?_
  exact (h (.block body) u hu trivial).bind fun _ v hv _ => .pure hv trivial

/-- What a `begin` block does to buffer and host, if code splices behind the cursor only. -/
theorem runBegin (hwithin : ∀ s {α : Type} (work : Work α), Keeps (Within s) (again work))
    (hs : D.Hosts s) (left : Nat) (body : Block) (span : Span) :
    Agrees (fun p q => D.Leads p.2 q.2 ∧ D.Hosts q.2 ∧ p.1.behind <+: q.1.behind)
      (fun _ _ => True) (b, s) ((host rounds again).runBegin left body span)
      ((host rounds again').runBegin left body span) fun _ _ => True := by
  obtain ⟨unit, outer, hunits⟩ := hs.units
  have hbuffer := leads_withBuffer hs.inv b
  have hblock := h.beginBlock (D.inv hbuffer) (rounds - left) body span
  -- where the block starts, and the unit that it splices into
  let start : State := { s.withBuffer b with
    depth := s.depth + 1, nesting := s.nesting + (rounds - left) }
  have hstart : start.units = { unit with buffer := b } :: outer := by
    simp only [start, State.withBuffer, hunits]
  have hbehind : Triple (· = (b, s)) ((host rounds again).runBegin left body span)
      (fun _ p => b.behind <+: p.1.behind ∧ ∃ unit outer, p.2.units = unit :: outer)
      (fun _ p => b.behind <+: p.1.behind ∧ ∃ unit outer, p.2.units = unit :: outer) := by
    refine runBegin_keeps (Q := fun c u => b.behind <+: c.behind ∧ ∃ unit outer,
      u.units = unit :: outer) (Within.stable start) (hwithin start (.block body)) (.refl start)
      fun u hu => ?_
    obtain ⟨buffer, hu, hspliced⟩ := Widened.cons (hstart ▸ hu.units)
    refine ⟨?_, _, _, hu⟩
    have hbuffer : u.bufferOr b = buffer := by simp [State.bufferOr, hu]
    have hbefore : buffer.before = b.before := hspliced.before.1
    simp only [hbuffer, Buffer.behind, hbefore, List.prefix_rfl]
  have hends := hbehind (b, s) rfl
  rw [host_runBegin] at hends
  simp only [Agrees, host_runBegin, hblock.same] at hends ⊢
  cases hend : Interpreter.beginBlock again (rounds - left) body span (s.withBuffer b) with
  | value a t =>
      rw [hend] at hends
      have hst := D.trans hbuffer (hblock.value hend).1
      exact ⟨trivial, ⟨hst, ⟨D.inv hst, hends.2⟩, hends.1⟩, trivial⟩
  | error e t =>
      rw [hend] at hends
      have hst := D.trans hbuffer (hblock.error hend).1
      exact ⟨trivial, ⟨hst, ⟨D.inv hst, hends.2⟩, hends.1⟩, trivial⟩
  | cutOff => exact ⟨trivial, trivial⟩

/-- The interpreter as a host. -/
def conduct (hwithin : ∀ s {α : Type} (work : Work α), Keeps (Within s) (again work))
    (rounds : Nat) : Parser.Conduct (host rounds again) (host rounds again') where
  Inv _ s := D.Hosts s
  Leads b s c t := D.Leads s t ∧ D.Hosts t ∧ b.behind <+: c.behind
  Fails _ _ _ := True
  inv h := h.2.1
  refl h := ⟨D.refl h.inv, h, List.prefix_rfl⟩
  trans h h' := ⟨D.trans h.1 h'.1, h'.2.1, h.2.2.trans h'.2.2⟩
  behind h := h.2.2
  looks h := ⟨D.refl h.inv, h, List.prefix_rfl⟩
  advances {b _} h := ⟨D.refl h.inv, h, b.behind_le_next⟩
  sameGlobals := sameGlobals_host rounds again again'
  resolves name h := by
    obtain ⟨hleads, hhosts⟩ := h.leads (D.change h.inv (.ensure name)) rfl
    exact ⟨hleads, hhosts, List.prefix_rfl⟩
  sameSubs := sameSubs_host rounds again again'
  installs {_ s} name function scopes h _ := by
    have hensured := D.change h.inv (.ensure name)
    have hwritten := D.trans hensured (D.change (D.inv hensured)
      (.write (s.globals.cell name) (D.kind.sub ⟨s.nextId, name, function, none, s.constructing?⟩)))
    have hinstalled := D.trans hwritten (D.change (D.inv hwritten)
      (.quiet (t := (host rounds again).installSub name function s) rfl rfl rfl))
    obtain ⟨hleads, hhosts⟩ := h.leads hinstalled rfl
    exact ⟨hleads, hhosts, List.prefix_rfl⟩
  begins left _ _ _ hs _ _ := h.runBegin hwithin hs left _ _
  fails _ _ _ := trivial

/-! ## Units -/

section

variable (hwithin : ∀ s {α : Type} (work : Work α), Keeps (Within s) (again work))

include hwithin

theorem construct (hs : D.Inv s) (name : String) (origin : UnitOrigin) (path : Option String)
    (source : String) :
    D.Runs s (construct rounds again name origin path source)
      (construct rounds again' name origin path source) fun _ => True := by
  let entered := s.enterUnit name origin path source
  have hentered : D.Leads s entered := D.change hs (.quiet rfl rfl rfl)
  have hparse := (h.conduct hwithin rounds).runUnit
    (p := .start source (s.enterUnit name origin path source)) rounds ⟨D.inv hentered, _, _, rfl⟩
  have hleft : ∀ q, (h.conduct hwithin rounds).Stays (.start source entered) q →
      D.Leads s (q.host.leaveUnit s.records.nextId q.buffer.source) := by
    intro q hq
    have hleads : D.Leads entered q.host ∧ D.Hosts q.host ∧ _ := hq.leads
    exact D.trans hentered (D.trans hleads.1 (D.change hleads.2.1.inv (.quiet rfl rfl rfl)))
  simp only [Agrees, construct_apply, hparse.same]
  cases hend : Parser.runUnit (host rounds again) rounds (.start source entered) with
  | value body q => exact ⟨trivial, hleft q (hparse.value hend).1, trivial⟩
  | error e q =>
      have hq := hleft q (hparse.error hend).1
      exact ⟨trivial, D.trans hq (D.change (D.inv hq) (.unwound s.depth)), trivial⟩
  | cutOff => exact ⟨trivial, trivial⟩

omit hwithin in
theorem execute (hs : D.Inv s) (unit : CompiledUnit) :
    D.Runs s (execute again unit) (execute again' unit) P := by
  have hblock : D.Runs s
      (withFrame ⟨unit.name, .unit, none⟩
        (inCodeOf (some unit.id) (inDetachedScope none (again (.block unit.body)))))
      (withFrame ⟨unit.name, .unit, none⟩
        (inCodeOf (some unit.id) (inDetachedScope none (again' (.block unit.body)))))
      fun flow => P flow.value :=
    .withFrame hs fun t ht _ => .inCodeOf ht fun u hu => .inDetachedScope hu fun v hv =>
      h (.block unit.body) v hv trivial
  exact hblock.bind fun flow t ht hflow => .pure ht hflow

theorem constructNow (hs : D.Inv s) (name : String) (origin : UnitOrigin) (path : Option String)
    (source : String) :
    D.Runs s (constructNow rounds again name origin path source)
      (constructNow rounds again' name origin path source) fun _ => True :=
  (h.construct hwithin hs name origin path source).mapError _

theorem evalString (hs : D.Inv s) (text : String) :
    D.Runs s (evalString rounds again text) (evalString rounds again' text) P :=
  (h.constructNow hwithin hs _ _ _ _).bind fun unit _ ht _ => h.execute ht unit

/-! ## Modules -/

omit h hwithin in
/-- Looking for the file of a module leaves the module table alone. -/
theorem findModuleFile (hs : D.Inv s) (name : String) (dirs : List String) :
    Agrees (fun s t => D.Leads s t ∧ t.modules = s.modules) (fun _ _ => True) s
      (findModuleFile name dirs) (findModuleFile name dirs) fun _ _ => True := by
  induction dirs generalizing s with
  | nil => exact ⟨rfl, ⟨D.refl hs, rfl⟩, trivial⟩
  | cons dir dirs ih =>
      have hlooked : D.Leads s
          { s with consulted := Path.join dir (Path.ofModule name) :: s.consulted } :=
        D.change hs (.quiet rfl rfl rfl)
      have : Trans (fun s t => D.Leads s t ∧ t.modules = s.modules)
          (fun s t => D.Leads s t ∧ t.modules = s.modules)
          (fun s t => D.Leads s t ∧ t.modules = s.modules) :=
        ⟨fun h h' => ⟨D.trans h.1 h'.1, h'.2.trans h.2⟩⟩
      refine Agrees.bind (Q := fun _ _ => True) (.update ⟨hlooked, rfl⟩ trivial)
        fun _ t ht _ => .get ?_
      have ht := D.inv ht.1
      split
      · exact .pure ⟨D.refl ht, rfl⟩ trivial
      · exact ⟨rfl, ⟨D.refl ht, rfl⟩, trivial⟩
      · exact ih ht

theorem runModule (hs : D.Inv s) (name : String) (path : Option String) (source : String) :
    D.Runs s (runModule rounds again name path source) (runModule rounds again' name path source)
      P :=
  (h.constructNow hwithin hs _ _ _ _).bind fun unit _ ht _ => h.execute ht unit

theorem load (hs : D.Inv s) {name : String} (hname : s.modules[name]? ≠ some .loaded)
    (path : Option String) (source : String) :
    D.Runs s (load rounds again name path source s.modules[name]?)
      (load rounds again' name path source s.modules[name]?) P := by
  have hrun : D.Runs (s.setModule name (some .loaded))
      (Interpreter.runModule rounds again name path source)
      (Interpreter.runModule rounds again' name path source) P :=
    h.runModule hwithin (D.loads hs hname) name path source
  simp only [Agrees, load_apply, hrun.same]
  cases hend : Interpreter.runModule rounds again name path source (s.setModule name (some .loaded)) with
  | value v t => exact ⟨trivial, D.loaded hs hname (hrun.value hend).1, D.kind.bool true⟩
  | error e t => exact ⟨trivial, D.failed hs hname (hrun.error hend).1, trivial⟩
  | cutOff => exact ⟨trivial, trivial⟩

theorem require (hs : D.Inv s) (name : String) :
    D.Runs s (require rounds again name) (require rounds again' name) P := by
  refine .get ?_
  split
  · exact .pure hs (D.kind.bool true)
  · rename_i source hentry
    have hname : s.modules[name]? ≠ some .loaded := by
      rw [hentry]
      nofun
    simpa only [hentry] using h.load hwithin hs hname none source
  · rename_i hentry
    have hfind := findModuleFile hs name s.modulePaths
    have hsame := hfind.same
    refine Agrees.bind (Q := fun _ t => t.modules[name]? = none)
      (hfind.weaken (fun _ ht => ht.1) (fun _ t ht _ => ?_) fun _ _ _ _ => trivial)
      fun found t ht hentry => ?_
    · rw [ht.2, hentry]
    · have hname : t.modules[name]? ≠ some .loaded := by
        rw [hentry]
        nofun
      simpa only [hentry] using h.load hwithin (D.inv ht) hname (some found.1) found.2

end

end Parts

end Discipline

end TwoPhase.Interpreter
