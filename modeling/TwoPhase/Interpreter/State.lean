import TwoPhase.Globals
import TwoPhase.Environment
import TwoPhase.CallStack
import TwoPhase.Units
import TwoPhase.Output
import TwoPhase.Files
import TwoPhase.Buffer
import TwoPhase.Deferral.Basic

/-!
# The state of an interpreter

One state holds all of a session: the globals, the units under construction, the pending hooks, and
the stacks of running code.  A unit under construction keeps its buffer here while one of its
`begin` blocks runs, so that the block can splice text into it.

The construction depth counts the `begin` blocks at work.  It is zero while plain runtime code runs,
and grows when a `begin` block constructs another unit that has `begin` blocks of its own.
-/

namespace TwoPhase

/-- A unit under construction. -/
structure Construction where
  /-- The text and the cursor, while a `begin` block of the unit runs. -/
  buffer : Buffer
  origin : UnitOrigin
  name : String
  id : UnitId
  deriving Inhabited

/-- A constructed unit, which can be run any number of times. -/
structure CompiledUnit where
  name : String
  origin : UnitOrigin
  body : Block
  /-- The text as finally parsed, spliced text included. -/
  source : String
  id : UnitId
  deriving Inhabited

/-- What is known of a module. -/
inductive ModuleEntry where
  /-- Its text, which has not been loaded. -/
  | registered (source : String)
  /-- Constructed and run, or at it. -/
  | loaded
  deriving DecidableEq, Inhabited, Repr

/-- The choices made when an interpreter is set up. -/
structure Settings where
  injection : InjectionMode
  callLimit : Option Nat
  /-- The name of main units that are not given one. -/
  unitName : String
  /-- The directories in which modules are looked for, in order. -/
  modulePaths : List String
  /-- What paths lead to. -/
  files : String → FileStatus
  output : Output
  /-- Whether the probes are bound. -/
  probes : Bool

namespace Settings

/-- The call depth at which recursion is taken for a runaway. -/
def defaultCallLimit : Nat := 10000

def default : Settings where
  injection := .precise
  callLimit := some defaultCallLimit
  unitName := "main"
  modulePaths := []
  files := fun _ => .missing
  output := .buffer ""
  probes := false

instance : Inhabited Settings := ⟨default⟩

end Settings

namespace Interpreter

/-- What code did to the unit under construction around it. -/
inductive Event where
  /-- It put a hook off at a construction depth. -/
  | deferred (depth : Nat) (hook : Hook DeferredBlock)
  /-- It spliced text in, with hooks pending at its depth or not. -/
  | spliced (text : String) (pending : Bool)
  /-- It cleared a depth. -/
  | cleared (depth : Nat)
  /-- It gave a construction up, and with it all slots deeper than a depth. -/
  | unwound (depth : Nat)
  deriving Inhabited

/-- What became of a hook that waits for an exit, and the hooks that waited then for the exits of
the blocks at work. -/
inductive ExitEvent where
  /-- A dispatch call reached it, and made it wait for the innermost block at work. -/
  | awaited (exits : List (List DeferredBlock)) (block : DeferredBlock)
  /-- It ran, since the block that it waited for is at work no more. -/
  | invoked (exits : List (List DeferredBlock)) (block : DeferredBlock)
  deriving Inhabited

structure State where
  globals : Globals
  /-- The units under construction, innermost first. -/
  units : List Construction
  /-- The number of `begin` blocks at work. -/
  depth : Nat
  /-- How deep the parses nest that those blocks interrupt. -/
  nesting : Nat
  warnings : Array UnitWarning
  deferral : Deferral DeferredBlock
  /-- What has been done to units under construction so far, the last first. -/
  history : List Event
  env : Environment
  calls : CallStack
  /-- How often code has asked who called it. -/
  asked : Nat
  /-- For each block at work the hooks to run when it exits, last put off first. -/
  exits : List (List DeferredBlock)
  /-- What became of such hooks so far, the last first. -/
  exitLog : List ExitEvent
  modules : NameMap ModuleEntry
  modulePaths : List String
  files : String → FileStatus
  /-- The paths at which modules were looked for, the last first. -/
  consulted : List String
  output : Output
  mainUnit : String
  /-- All units ever begun. -/
  records : UnitTable
  /-- The unit of the code at work. -/
  currentUnit : Option UnitId
  /-- The number that the next sub is given. -/
  nextId : Nat
  /-- The values that probes were told to keep. -/
  kept : NameMap Value

namespace State

/-- The globals that natives are bound to at the start. -/
def nativeGlobals (probes : Bool) : Globals :=
  let natives := Builtin.all.map Native.builtin
    ++ if probes then Probe.all.map Native.probe else []
  natives.foldl (fun g native => g.bindFresh native.name (some (.native native))) .empty

/-- The state of a fresh interpreter. -/
def initial (settings : Settings) : State where
  globals := nativeGlobals settings.probes
  units := []
  depth := 0
  nesting := 0
  warnings := #[]
  deferral := .new settings.injection
  history := []
  env := .initial
  calls := .empty settings.callLimit
  asked := 0
  exits := []
  exitLog := []
  modules := ∅
  modulePaths := settings.modulePaths
  files := settings.files
  consulted := []
  output := settings.output
  mainUnit := settings.unitName
  records := .empty
  currentUnit := none
  nextId := 0
  kept := ∅

instance : Inhabited State := ⟨initial .default⟩

/-- The name of the innermost unit under construction, or else that of main units. -/
def unitName (s : State) : String := (s.units.head?.map (·.name)).getD s.mainUnit

/-- The depths that have hooks pending. -/
def pendingDepths (s : State) : List Nat := s.deferral.pending.activeDepths

/-- The dispatch function that the dispatch name is bound to. -/
def boundDispatch? (s : State) : Option DispatchFn :=
  match s.globals.lookup? dispatchName with
  | some (.dispatch fn) => some fn
  | _ => none

/-- An error raised in the frames at work. -/
def raised (s : State) (fault : Fault) : EvalError := .amid s.calls.frames fault

/-- Locates an error in the code at work, unless it has a better location. -/
def locate (s : State) (span : Span) (e : EvalError) : EvalError :=
  e.orLocation span s.currentUnit

/-- Records what was done to a unit under construction. -/
def record (s : State) (event : Event) : State := { s with history := event :: s.history }

/-- Makes a block wait for the exit of the innermost block at work. -/
def await (s : State) (block : DeferredBlock) : State :=
  { s with
    exits := match s.exits with
      | [] => []
      | waiting :: outer => (block :: waiting) :: outer
    exitLog := .awaited s.exits block :: s.exitLog }

/-- Records that a block runs whose wait is over. -/
def invoke (s : State) (block : DeferredBlock) : State :=
  { s with exitLog := .invoked s.exits block :: s.exitLog }

/-! ## The state as a construction site -/

/-- Records a warning about a unit under construction. -/
def warn (s : State) (unit : Construction) (d : Diagnostic) : State :=
  let warning : UnitWarning := ⟨unit.id, d.withNote s!"in unit `{unit.name}`"⟩
  { s with warnings := s.warnings.push warning }

/-- Splices text into the innermost unit, unless it is an evaluated string. -/
def inject (mode : InjectionMode) (text : String) (s : State) :
    Except InjectError Unit × State :=
  match s.units with
  | [] => (.error .noUnit, s)
  | unit :: outer =>
    if unit.origin = .stringEval then (.error .stringEval, s)
    else
      let (injection, buffer) := match mode with
        | .precise => unit.buffer.insertAtCursor text
        | .line => unit.buffer.insertNextLine text
      let injected := { s with units := { unit with buffer } :: outer }
      (.ok (), match injection.warning with
        | none => injected
        | some d => injected.warn unit d)

/-- Binds the dispatch name to a fresh cell with a dispatch function. -/
def bindDispatch (fn : DispatchFn) (s : State) : State :=
  { s with globals := (s.globals.replace dispatchName (.dispatch fn)).2 }

/-- Binds the dispatch name to an earlier function, or unbinds it. -/
def unbindDispatchTo (parent : Option DispatchFn) (s : State) : State :=
  match parent with
  | some fn => s.bindDispatch fn
  | none => { s with globals := (s.globals.remove dispatchName).2 }

/-- The state as a place where units are constructed. -/
def site : Site State where
  depth := State.depth
  inStringEval := fun s => s.units.head?.any (·.origin = .stringEval)
  bind := bindDispatch
  unbindTo := unbindDispatchTo
  inject := inject

/-- Runs an operation on the pending hooks and the rest of the state, to which they are put back. -/
def withDeferral {α : Type} (s : State)
    (op : Deferral DeferredBlock → State → α × Deferral DeferredBlock × State) : α × State :=
  let d := s.deferral
  let (result, d, s) := op d { s with deferral := default }
  (result, { s with deferral := d })

end State

end Interpreter

end TwoPhase
