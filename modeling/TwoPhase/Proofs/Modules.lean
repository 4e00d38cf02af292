import TwoPhase.Proofs.Discipline.Session
import TwoPhase.Proofs.Interpreter.Confined

/-!
# Modules

A module counts as loaded from the moment it starts to load, so whatever requires it meanwhile, and
from then on, gets by without it.  That a module is loaded is a discipline of its own
(`Discipline.onceLoaded`): no code undoes it but the load of that very module, and a module that is
loaded is not loaded again.

A load that fails puts the entry back that it found, so that the next one starts over.
-/

namespace TwoPhase

open Interpreter
open Run (Triple Keeps)
open Session (Request)

namespace Interpreter

variable {P : Value → Prop} {s t u : State} {name : String} {rounds bound : Nat} {again : Again}
  {source : String}

/-! ## The module table -/

/-- A module is loaded, or at it. -/
def State.Loaded (s : State) (name : String) : Prop := s.modules[name]? = some .loaded

theorem State.modules_setModule (s : State) (name other : String) (entry : Option ModuleEntry) :
    (s.setModule name entry).modules[other]? = if name = other then entry else s.modules[other]? := by
  cases entry with
  | some entry =>
      change (s.modules.insert name entry)[other]? = _
      simp only [Std.TreeMap.getElem?_insert, Std.LawfulEqCmp.compare_eq_iff_eq]
  | none =>
      change (s.modules.erase name)[other]? = _
      simp only [Std.TreeMap.getElem?_erase, Std.LawfulEqCmp.compare_eq_iff_eq]

theorem State.setModule_loaded (s : State) (name : String) :
    (s.setModule name (some .loaded)).Loaded name := by
  rw [Loaded, modules_setModule, if_pos rfl]

/-- Another module may change. -/
theorem State.Loaded.setModule {other : String} (h : s.Loaded name) (hne : other ≠ name)
    (entry : Option ModuleEntry) : (s.setModule other entry).Loaded name := by
  rw [Loaded, modules_setModule, if_neg hne]
  exact h

theorem Change.modules (h : Change P s t) : t.modules = s.modules := by
  cases h with
  | quiet _ hmodules _ => exact hmodules
  | putOff _ hput =>
      cases hput with
      | joined => rfl
      | opened _ _ hinjected =>
          obtain ⟨_, _, _, _, _, rfl⟩ := hinjected
          rfl
  | unwound depth => rcases unwindTo_cases depth s with ⟨_, h⟩ | ⟨_, h⟩ <;> rw [h] <;> rfl
  | _ => rfl

/-- That a module is loaded. -/
def Discipline.onceLoaded (name : String) : Discipline fun _ => True where
  Inv s := s.Loaded name
  Leads _ t := t.Loaded name
  kind := .all
  keeping _ := .all
  inv h := h
  refl h := h
  trans _ h := h
  change hs h := by rwa [State.Loaded, h.modules]
  opens h := h
  closes _ h := h
  invokes _ h := h
  exits _ ht h := h.ends ht
  loads hs hother := hs.setModule (by rintro rfl; exact hother hs) _
  loaded _ _ h := h
  failed hs hother h := h.setModule (by rintro rfl; exact hother hs) _

/-! ## What requires do -/

/-- Nothing, where the module is loaded. -/
theorem require_loaded (h : s.Loaded name) : require rounds again name s = .value (.bool true) s := by
  have hentry : s.modules[name]? = some .loaded := h
  simp only [require, Run.bind_apply, Run.get_apply, hentry, Run.pure_apply]

theorem require_registered (h : s.modules[name]? = some (.registered source)) :
    require rounds again name s =
      load rounds again name none source (some (.registered source)) s := by
  simp only [require, Run.bind_apply, Run.get_apply, h]

theorem require_absent (h : s.modules[name]? = none) :
    require rounds again name s = (do
      let (path, source) ← findModuleFile name s.modulePaths
      load rounds again name (some path) source none : Eval Value) s := by
  simp only [require, Run.bind_apply, Run.get_apply, h]

/-- Looking for a file adds no unit, and leaves the module table alone. -/
theorem findModuleFile_keeps (name : String) (dirs : List String) :
    Keeps (fun t => t.modules = s.modules ∧ t.records = s.records) (findModuleFile name dirs) := by
  induction dirs with
  | nil => exact fun _ ht => ht
  | cons dir dirs ih =>
      refine Keeps.bind (Keeps.update fun _ ht => ht) fun _ => Keeps.get.bind fun u => ?_
      split
      · exact Keeps.pure _
      · exact fun _ ht => ht
      · exact ih

/-- However a load ends, the unit that it begins is made of the text of the module.  If it succeeds,
the module is loaded, and otherwise its entry is as given. -/
theorem load_ends (path : Option String) (source : String) (entry : Option ModuleEntry) :
    Triple (· = s) (load bound (run bound) name path source entry)
      (fun _ t => t.Loaded name ∧ Recorded s ⟨name, path, .required, source, source⟩ t)
      (fun _ t => t.modules[name]? = entry ∧
        Recorded s ⟨name, path, .required, source, source⟩ t) := by
  intro s' hs'
  obtain rfl : s = s' := hs'.symm
  let entered := s.setModule name (some .loaded)
  have hloaded : (Discipline.onceLoaded name).Runs entered
      (runModule bound (run bound) name path source) (runModule bound (run bound) name path source)
      fun _ => True :=
    Discipline.Parts.runModule (Discipline.run_parts _ bound)
      (fun s _ work => run_within bound s work) (s.setModule_loaded name) name path source
  have hrecorded := constructed_recorded bound name .required path source entered entered rfl
  rw [load_apply]
  cases hend : runModule bound (run bound) name path source entered with
  | value v t =>
      simp only [← runModule.eq_def, hend] at hrecorded
      exact ⟨(hloaded.value hend).1, hrecorded⟩
  | error e t =>
      simp only [← runModule.eq_def, hend] at hrecorded
      exact ⟨(t.modules_setModule name name entry).trans (if_pos rfl), hrecorded⟩
  | cutOff => trivial

/-- How a load ends: the text of the module is constructed while the module counts as loaded, and
the unit runs if there is one.  Where either fails, an entry is put back. -/
inductive LoadEnds (bound : Nat) (name : String) (path : Option String) (source : String)
    (entry : Option ModuleEntry) (s : State) : Except EvalError Value → State → Prop where
  /-- There is no unit. -/
  | refused {e : EvalError} {t : State}
      (hconstruct : constructNow bound (run bound) name .required path source
        (s.setModule name (some .loaded)) = .error e t) :
      LoadEnds bound name path source entry s (.error e) (t.setModule name entry)
  /-- The unit fails. -/
  | failed {unit : CompiledUnit} {e : EvalError} {t u : State}
      (hconstruct : constructNow bound (run bound) name .required path source
        (s.setModule name (some .loaded)) = .value unit t)
      (hexecute : execute (run bound) unit t = .error e u) :
      LoadEnds bound name path source entry s (.error e) (u.setModule name entry)
  /-- The unit runs to its end. -/
  | done {unit : CompiledUnit} {v : Value} {t u : State}
      (hconstruct : constructNow bound (run bound) name .required path source
        (s.setModule name (some .loaded)) = .value unit t)
      (hexecute : execute (run bound) unit t = .value v u) :
      LoadEnds bound name path source entry s (.ok (.bool true)) u

theorem load_iff {path : Option String} {entry : Option ModuleEntry}
    {ended : Except EvalError Value} :
    (load bound (run bound) name path source entry).run? s = some (ended, t) ↔
      LoadEnds bound name path source entry s ended t := by
  rw [Run.run?, load_apply, runModule, Run.bind_apply]
  constructor
  · intro hrun
    cases hconstruct : constructNow bound (run bound) name .required path source
        (s.setModule name (some .loaded)) with
    | value unit u =>
        cases hexecute : execute (run bound) unit u with
        | value v w =>
            simp only [hconstruct, hexecute] at hrun
            cases hrun
            exact .done hconstruct hexecute
        | error e w =>
            simp only [hconstruct, hexecute] at hrun
            cases hrun
            exact .failed hconstruct hexecute
        | cutOff =>
            simp only [hconstruct, hexecute] at hrun
            cases hrun
    | error e u =>
        rw [hconstruct] at hrun
        cases hrun
        exact .refused hconstruct
    | cutOff =>
        rw [hconstruct] at hrun
        cases hrun
  · intro h
    cases h with
    | refused hconstruct => rw [hconstruct]
    | failed hconstruct hexecute => simp only [hconstruct, hexecute]
    | done hconstruct hexecute => simp only [hconstruct, hexecute]

/-- However a require ends, the module is loaded, or its entry is what it was. -/
theorem require_ends : Triple (· = s) (require bound (run bound) name)
    (fun _ t => t.Loaded name) (fun _ t => t.modules[name]? = s.modules[name]?) := by
  intro s' hs'
  obtain rfl : s = s' := hs'.symm
  cases hentry : s.modules[name]? with
  | none =>
      rw [require_absent hentry]
      refine Triple.bind (Q := fun _ t => t.modules = s.modules)
        ((findModuleFile_keeps name s.modulePaths).weaken (fun _ ht => ht) (fun _ _ ht => ht.1)
          fun _ t ht => ?_) (fun found t ht => ?_) s ⟨rfl, rfl⟩
      · rw [ht.1, hentry]
      · exact (load_ends _ _ _).weaken (fun _ ht => ht) (fun _ _ ht => ht.1)
          (fun _ _ ht => ht.1) t rfl
  | some entry =>
      cases entry with
      | loaded =>
          rw [require_loaded hentry]
          exact hentry
      | registered source =>
          rw [require_registered hentry]
          exact (load_ends _ _ _).weaken (fun _ ht => ht) (fun _ _ ht => ht.1)
            (fun _ _ ht => ht.1) s rfl

/-- While a module that is not loaded is required, it is loaded wherever code is at work. -/
theorem require_meanwhile {α : Type} {work : Work α} {n : Nat} (hs : ¬s.Loaded name)
    (h : Involves (fun again => require bound again name) bound s n work u) : u.Loaded name := by
  refine (h.within (Discipline.onceLoaded name) fun again' hagain => ?_).1
  have hmodule : ∀ (t : State) (path : Option String) (source : String),
      runModule bound again' name path source (t.setModule name (some .loaded)) =
        runModule bound (run bound) name path source (t.setModule name (some .loaded)) :=
    fun t path source => (Discipline.Parts.runModule hagain
      (fun s _ work => run_within bound s work) (t.setModule_loaded name) name path source).same
  cases hentry : s.modules[name]? with
  | none =>
      simp only [require_absent hentry, Run.bind_apply]
      cases findModuleFile name s.modulePaths s with
      | value found t => simp only [load_apply, hmodule]
      | error e t => rfl
      | cutOff => rfl
  | some entry =>
      cases entry with
      | loaded => exact absurd hentry hs
      | registered source => simp only [require_registered hentry, load_apply, hmodule]

/-- However a run ends, the unit that it begins first has its record. -/
def Begins {α : Type} (s : State) (entry : UnitRecord) (body : Eval α) : Prop :=
  Triple (· = s) body (fun _ => Recorded s entry) (fun _ => Recorded s entry)

theorem require_begins_registered (h : s.modules[name]? = some (.registered source)) :
    Begins s ⟨name, none, .required, source, source⟩ (require bound (run bound) name) := by
  intro s' hs'
  obtain rfl : s = s' := hs'.symm
  rw [require_registered h]
  exact (load_ends _ _ _).weaken (fun _ ht => ht) (fun _ _ ht => ht.2) (fun _ _ ht => ht.2) s rfl

/-- A require of a module that is not loaded runs it. -/
theorem require_registered_iff (h : s.modules[name]? = some (.registered source))
    {ended : Except EvalError Value} :
    (require bound (run bound) name).run? s = some (ended, t) ↔
      LoadEnds bound name none source (some (.registered source)) s ended t := by
  rw [← load_iff, Run.run?, Run.run?, require_registered h]

theorem require_found_iff {path : String} (h : s.modules[name]? = none)
    (hfound : findModuleFile name s.modulePaths s = .value (path, source) t)
    {ended : Except EvalError Value} :
    (require bound (run bound) name).run? s = some (ended, u) ↔
      LoadEnds bound name (some path) source none t ended u := by
  rw [← load_iff, Run.run?, Run.run?, require_absent h, Run.bind_apply, hfound]

theorem require_begins_found {path : String} (h : s.modules[name]? = none)
    (hfound : findModuleFile name s.modulePaths s = .value (path, source) t) :
    Begins s ⟨name, some path, .required, source, source⟩ (require bound (run bound) name) := by
  intro s' hs'
  obtain rfl : s = s' := hs'.symm
  have hrecords : t.records = s.records := by
    have hkept := findModuleFile_keeps name s.modulePaths s ⟨rfl, rfl⟩
    rw [hfound] at hkept
    exact hkept.2
  have hbegun : ∀ u, Recorded t ⟨name, some path, .required, source, source⟩ u →
      Recorded s ⟨name, some path, .required, source, source⟩ u := fun u hu => by
    rwa [Recorded, hrecords] at hu
  simp only [require_absent h, Run.bind_apply, hfound]
  exact (load_ends _ _ _).weaken (fun _ ht => ht) (fun _ u ht => hbegun u ht.2)
    (fun _ u ht => hbegun u ht.2) t rfl

/-! ## Once and for all -/

/-- A module stays loaded, whatever becomes of a state: while parts of programs and statements run,
and in all requests, as long as no text is made loadable as that module again. -/
structure State.StaysLoaded (name : String) (s : State) : Prop where
  work : ∀ (bound : Nat) {α : Type} (work : Work α),
    Throughout (·.Loaded name) (fun again => again work) bound s
  stmts : ∀ (bound : Nat) (last : Value) (list : List Stmt),
    Throughout (·.Loaded name) (fun again => stmts bound again last list) bound s
  onward : ∀ {t}, Session.Onward (fun _ => True) (· ≠ name) s t → t.Loaded name ∧
    ∀ (request : Request) (bound : Nat),
      Throughout (·.Loaded name) (fun again => request.runWith bound again) bound t

theorem State.Loaded.stays (hs : s.Loaded name) : s.StaysLoaded name where
  work bound _ work := Discipline.throughout (.onceLoaded name) fun _ hagain =>
    hagain work s hs work.of_all
  stmts bound last list := Discipline.throughout (.onceLoaded name) fun _ hagain =>
    hagain.stmts hs trivial list
  onward {t} h := by
    have ht : t.Loaded name := Discipline.onward (.onceLoaded name) (fun request _ => request.of_all)
      (fun _ _ _ hother hu => hu.setModule hother _) h hs
    exact ⟨ht, fun request bound => Discipline.throughout (.onceLoaded name) fun _ hagain =>
      hagain.request (fun s _ work => run_within bound s work) bound ht request.of_all⟩

/-- What a call of the native sub does. -/
theorem run_require : run (bound + 1) (.native (.builtin .require) [.str name]) s =
    require bound (run bound) name s := by
  rw [run_succ]
  rfl

/-- A module that is loaded, or at it, is required without effect, and stays loaded until a text is
made loadable as that module again.  One that is not loaded counts as loaded wherever code is at
work meanwhile.  In the end it is loaded, or its entry is what it was.  The unit that was begun is
made of its text, and has run if its construction succeeded. -/
theorem require_once (bound : Nat) (name : String) (s : State) :
    run (bound + 1) (.native (.builtin .require) [.str name]) s =
      require bound (run bound) name s ∧
    (s.Loaded name →
      require bound (run bound) name s = .value (.bool true) s ∧ s.StaysLoaded name) ∧
    (¬s.Loaded name → ∀ {n : Nat} {α : Type} {work : Work α} {u : State},
      Involves (fun again => require bound again name) bound s n work u → u.Loaded name) ∧
    (∀ v t, require bound (run bound) name s = .value v t → t.Loaded name) ∧
    (∀ e t, require bound (run bound) name s = .error e t →
      t.modules[name]? = s.modules[name]?) ∧
    (∀ source, s.modules[name]? = some (.registered source) →
      Begins s ⟨name, none, .required, source, source⟩ (require bound (run bound) name) ∧
      ∀ ended t, (require bound (run bound) name).run? s = some (ended, t) ↔
        LoadEnds bound name none source (some (.registered source)) s ended t) ∧
    ∀ path source t, s.modules[name]? = none →
      findModuleFile name s.modulePaths s = .value (path, source) t →
      Begins s ⟨name, some path, .required, source, source⟩ (require bound (run bound) name) ∧
      ∀ ended u, (require bound (run bound) name).run? s = some (ended, u) ↔
        LoadEnds bound name (some path) source none t ended u := by
  have hends : Triple (· = s) (require bound (run bound) name) _ _ := require_ends
  refine ⟨run_require, fun hs => ⟨require_loaded hs, hs.stays⟩,
    fun hs _ _ _ _ h => require_meanwhile hs h, fun v t hend => ?_, fun e t hend => ?_,
    fun source h => ⟨require_begins_registered h, fun _ _ => require_registered_iff h⟩,
    fun path source t h hfound =>
      ⟨require_begins_found h hfound, fun _ _ => require_found_iff h hfound⟩⟩
  · simpa only [hend] using hends s rfl
  · simpa only [hend] using hends s rfl

end Interpreter

end TwoPhase
