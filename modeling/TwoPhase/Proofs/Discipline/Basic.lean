import TwoPhase.Proofs.Sound.Running

/-!
# Disciplines

A discipline says what holds of every state that code comes to (`Inv`) and what may become of a
state (`Leads`), among values of one kind.  It has to say so of the changes that code makes to a
state at once, which are few (`Change`), and of two that are undone later: a block is at work until
it exits, which takes the hooks that wait for it (`Invoking`), and a module is loaded unless that
fails.

Code that keeps a discipline is told by the rules of this module.  As for sound code, they compare
two ways to run nested parts, so that they show which parts a run can come to as well.
-/

namespace TwoPhase.Interpreter

open Run (Agrees)

variable {α β : Type} {P : Value → Prop} {s t u : State}

/-! ## Kinds of values -/

/-- A kind of values that code makes of each other: what a program writes down, lists of the kind,
and all subs.  Probes read any value at all, so they are of no other kind than all values. -/
structure Kind (P : Value → Prop) : Prop where
  nil : P .nil
  bool : ∀ b, P (.bool b)
  int : ∀ n, P (.int n)
  str : ∀ text, P (.str text)
  list : ∀ {items : Array Value}, (∀ v ∈ items, P v) → P (.list items)
  sub : ∀ sub, P (.sub sub)
  probe : ∀ {probe}, P (.native (.probe probe)) → ∀ v, P v

/-- All values are of one kind. -/
theorem Kind.all : Kind fun _ => True where
  nil := trivial
  bool _ := trivial
  int _ := trivial
  str _ := trivial
  list _ := trivial
  sub _ := trivial
  probe _ _ := trivial

/-- A value of a kind, or else a dispatch function. -/
def OrDispatch (P : Value → Prop) (v : Value) : Prop := P v ∨ ∃ fn, v = .dispatch fn

/-- A state that holds values of a kind, but for the dispatch functions that its globals have. -/
structure State.Keeping (P : Value → Prop) (s : State) : Prop where
  global : ∀ {cell v}, s.globals.value? cell = some v → OrDispatch P v
  lexical : ∀ {v}, s.env.Holds v → P v
  pending : ∀ {v}, s.deferral.pending.Holds v → P v
  waiting : ∀ {blocks}, blocks ∈ s.exits → ∀ block ∈ blocks, P block.callable
  kept : ∀ {name : String} {v}, s.kept[name]? = some v → P v

theorem State.Keeping.all : s.Keeping fun _ => True where
  global _ := .inl trivial
  lexical _ := trivial
  pending _ := trivial
  waiting _ _ _ := trivial
  kept _ := trivial

/-- A state with one more block at work, for whose exit nothing waits yet. -/
def State.opened (s : State) : State := { s with exits := [] :: s.exits }

/-- A state whose innermost block is at work no more. -/
def State.closed (s : State) : State := { s with exits := s.exits.tail }

/-- Work whose values are of a kind; only what is called may be a dispatch function. -/
def Work.Of (P : Value → Prop) : {α : Type} → Work α → Prop
  | _, .call callee args _ => OrDispatch P callee ∧ ∀ arg ∈ args, P arg
  | _, .native sub args => P (Value.native sub) ∧ ∀ arg ∈ args, P arg
  | _, _ => True

theorem Work.of_all (work : Work α) : work.Of fun _ => True := by
  cases work with
  | call => exact ⟨.inl trivial, fun _ _ => trivial⟩
  | native => exact ⟨trivial, fun _ _ => trivial⟩
  | _ => trivial

/-! ## Changes -/

/-- What code does to a state at once, with values of a kind. -/
inductive Change (P : Value → Prop) (s : State) : State → Prop where
  /-- What holds no values changes, and is no module and no hook that waits for an exit. -/
  | quiet {t : State} (hstore : t.store = s.store) (hmodules : t.modules = s.modules)
      (hlog : t.exitLog = s.exitLog) : Change P s t
  | rescope {env : Environment} (h : ∀ v, env.Holds v → s.env.Holds v ∨ P v) :
      Change P s { s with env }
  | write (cell : CellRef) {v : Value} (h : P v) :
      Change P s { s with globals := s.globals.set cell v }
  | ensure (name : String) : Change P s { s with globals := s.globals.ensure name }
  | keep (name : String) {v : Value} (h : P v) :
      Change P s { s with kept := s.kept.insert name v }
  | putOff {hook : Hook DeferredBlock} {t : State} (h : P hook.block.callable)
      (hput : PutOff hook s t) : Change P s t
  | cleared (depth : Nat) : Change P s (s.cleared depth)
  | unwound (depth : Nat) : Change P s (s.unwindTo depth)
  | await {block : DeferredBlock} (h : P block.callable) : Change P s (s.await block)

/-- Hooks run one after the other when a block exits, each where the one before has led to. -/
inductive Invoking (Leads : State → State → Prop) : State → List DeferredBlock → State → Prop where
  | nil {s : State} : Invoking Leads s [] s
  | cons {s t u : State} {block : DeferredBlock} {blocks : List DeferredBlock}
      (h : Leads (s.invoke block) t) (hrest : Invoking Leads t blocks u) :
      Invoking Leads s (block :: blocks) u

/-- What holds wherever a hook has led to holds in the end. -/
theorem Invoking.ends {I : State → Prop} {blocks : List DeferredBlock}
    (h : Invoking (fun _ t => I t) s blocks t) (hs : I s) : I t := by
  induction h with
  | nil => exact hs
  | cons h _ ih => exact ih h

/-- What is said of states and of what becomes of them, and is true of all that code does. -/
structure Discipline (P : Value → Prop) where
  Inv : State → Prop
  Leads : State → State → Prop
  kind : Kind P
  keeping : ∀ {s}, Inv s → s.Keeping P
  inv : ∀ {s t}, Leads s t → Inv t
  refl : ∀ {s}, Inv s → Leads s s
  trans : ∀ {s t u}, Leads s t → Leads t u → Leads s u
  change : ∀ {s t}, Inv s → Change P s t → Leads s t
  /-- A block is at work, -/
  opens : ∀ {s}, Inv s → Inv s.opened
  /-- until its statements have ended. -/
  closes : ∀ {s t}, Inv s → Leads s.opened t → Inv t.closed
  /-- Then the hooks run that waited for it, -/
  invokes : ∀ {s} (block), Inv s → Inv (s.invoke block)
  /-- and so it exits. -/
  exits : ∀ {s t u}, Inv s → Leads s.opened t → Invoking Leads t.closed (t.exits.headD []) u →
    Leads s u
  /-- A module is loaded, -/
  loads : ∀ {s name}, Inv s → s.modules[name]? ≠ some .loaded →
    Inv (s.setModule name (some .loaded))
  /-- which may succeed -/
  loaded : ∀ {s t name}, Inv s → s.modules[name]? ≠ some .loaded →
    Leads (s.setModule name (some .loaded)) t → Leads s t
  /-- or fail. -/
  failed : ∀ {s t name}, Inv s → s.modules[name]? ≠ some .loaded →
    Leads (s.setModule name (some .loaded)) t → Leads s (t.setModule name s.modules[name]?)

namespace Discipline

variable (D : Discipline P)

instance : Trans D.Leads D.Leads D.Leads := ⟨D.trans⟩

/-- Runs that agree and keep a discipline. -/
abbrev Runs {ε : Type} (s : State) (body body' : Run State ε α) (Q : α → Prop) : Prop :=
  Agrees D.Leads (fun _ _ => True) s body body' fun a _ => Q a

/-- Ways to run nested parts that agree on work of a kind, and keep a discipline there. -/
def Parts (again again' : Again) : Prop :=
  ∀ {α : Type} (work : Work α) (s : State), D.Inv s → work.Of P →
    D.Runs s (again work) (again' work) fun a => P (work.result a)

variable {D} {ε ε' : Type} {body body' : Run State ε α} {Q : α → Prop}

/-! ## Rules -/

namespace Runs

theorem bind {next next' : α → Run State ε β} {R : β → Prop} (h : D.Runs s body body' Q)
    (hnext : ∀ a t, D.Inv t → Q a → D.Runs t (next a) (next' a) R) :
    D.Runs s (body >>= next) (body' >>= next') R :=
  Agrees.bind h fun a t hst ha => hnext a t (D.inv hst) ha

theorem get {next next' : State → Run State ε α} (h : D.Runs s (next s) (next' s) Q) :
    D.Runs s (MonadState.get >>= next) (MonadState.get >>= next') Q :=
  h

theorem attempt (h : D.Runs s body body' Q) :
    D.Runs s (Run.attempt body : Run State ε' (Except ε α)) (Run.attempt body')
      fun result => ∀ a, result = .ok a → Q a := by
  refine Agrees.weaken (Agrees.attempt h) (fun _ hst => hst) (fun result t _ hresult => ?_)
    fun _ _ _ he => he
  rintro a rfl
  exact hresult

theorem mapError (h : D.Runs s body body' Q) (f : State → ε → ε') :
    D.Runs s (Run.mapError body f) (Run.mapError body' f) Q :=
  Agrees.mapError h fun _ _ _ _ => trivial

theorem weaken {R : α → Prop} (h : D.Runs s body body' Q) (hQ : ∀ a, Q a → R a) :
    D.Runs s body body' R :=
  Agrees.weaken h (fun _ hst => hst) (fun a _ _ ha => hQ a ha) fun _ _ _ he => he

variable (hs : D.Inv s)

include hs

theorem pure {a : α} (h : Q a) : D.Runs s (Pure.pure a : Run State ε α) (Pure.pure a) Q :=
  Agrees.pure (D.refl hs) h

theorem throw {e : ε} : D.Runs s (MonadExcept.throw e : Run State ε α) (MonadExcept.throw e) Q :=
  Agrees.throw (D.refl hs) trivial

theorem raise {fault : Fault} : D.Runs s (raise fault : Eval α) (raise fault) Q :=
  ⟨rfl, D.refl hs, trivial⟩

theorem orRaise {result : Except Fault α} (h : ∀ a, result = .ok a → Q a) :
    D.Runs s (orRaise result) (orRaise result) Q := by
  cases result with
  | ok a => exact pure hs (h a rfl)
  | error fault => exact raise hs

theorem change {f : State → State} (h : Change P s (f s)) :
    D.Runs s (modify f : Run State ε PUnit) (modify f) fun _ => True :=
  .update (D.change hs h) trivial

theorem quiet {f : State → State} (hstore : (f s).store = s.store)
    (hmodules : (f s).modules = s.modules) (hlog : (f s).exitLog = s.exitLog) :
    D.Runs s (modify f : Run State ε PUnit) (modify f) fun _ => True :=
  change hs (.quiet hstore hmodules hlog)

theorem modifyGet {f : State → α × State} (h : Change P s (f s).2) (hQ : Q (f s).1) :
    D.Runs s (MonadState.modifyGet f : Run State ε α) (MonadState.modifyGet f) Q :=
  Agrees.modifyGet (D.change hs h) hQ

/-! ## Entering and leaving -/

/-- What is entered and left by changes. -/
theorem between {enter : Run State ε PUnit} {g : State → State} (henter : enter s = .value ⟨⟩ u)
    (hchange : Change P s u) (hleave : ∀ t : State, Change P t (g t))
    (h : D.Inv u → D.Runs u body body' Q) :
    D.Runs s (do enter; Run.ensuring body g) (do enter; Run.ensuring body' g) Q := by
  have hentered := D.change hs hchange
  have hend : ∀ t, D.Leads u t → D.Leads s (g t) := fun t ht =>
    D.trans hentered (D.trans ht (D.change (D.inv ht) (hleave t)))
  exact Agrees.between (h (D.inv hentered)) henter (fun a t ht ha => ⟨hend t ht, ha⟩)
    fun e t ht _ => ⟨hend t ht, trivial⟩

theorem withFrame {body body' : Eval α} {frame : Frame}
    (h : ∀ t : State, D.Inv t → t.exits = s.exits → D.Runs t body body' Q) :
    D.Runs s (withFrame frame body) (withFrame frame body') Q := by
  cases hpush : s.calls.push frame with
  | error fault =>
      simp only [Agrees, Interpreter.withFrame, Run.bind_apply, pushFrame, hpush]
      exact ⟨trivial, D.refl hs, trivial⟩
  | ok calls =>
      exact between (u := { s with calls }) hs (by simp [pushFrame, hpush]) (.quiet rfl rfl rfl)
        (fun t => .quiet rfl rfl rfl) fun hentered => h _ hentered rfl

theorem inDetachedScope {body body' : Eval α} {parent : Option ScopeId}
    (h : ∀ t, D.Inv t → D.Runs t body body' Q) :
    D.Runs s (inDetachedScope parent body) (inDetachedScope parent body') Q :=
  between hs rfl (.rescope fun _ hv => .inl (State.holds_enter hv))
    (fun _ => .rescope fun _ hv => .inl (State.holds_pop hv)) fun hentered => h _ hentered

theorem inBlockScope {body body' : Eval α} (h : ∀ t, D.Inv t → D.Runs t body body' Q) :
    D.Runs s (inBlockScope body) (inBlockScope body') Q :=
  between hs rfl (.rescope fun _ hv => .inl (State.holds_enter hv))
    (fun _ => .rescope fun _ hv => .inl (State.holds_pop hv)) fun hentered => h _ hentered

theorem inFrame {body body' : Eval α} {frame : Frame} {parent : Option ScopeId}
    (h : ∀ t, D.Inv t → D.Runs t body body' Q) :
    D.Runs s (inFrame frame parent body) (inFrame frame parent body') Q :=
  withFrame hs fun _ ht _ => mapError (inDetachedScope ht h) _

theorem inCodeOf {body body' : Eval α} {unit : Option UnitId}
    (h : ∀ t, D.Inv t → D.Runs t body body' Q) :
    D.Runs s (inCodeOf unit body) (inCodeOf unit body') Q := by
  cases unit with
  | none => exact h s hs
  | some id =>
      exact get (between hs rfl (.quiet rfl rfl rfl) (fun t => .quiet rfl rfl rfl)
        fun hentered => h _ hentered)

end Runs

end Discipline

end TwoPhase.Interpreter
