import TwoPhase.Parser.Grammar
import TwoPhase.Interpreter.Defer

/-!
# Constructing units

The interpreter is the host of the parser.  While a `begin` block runs, the buffer of its unit is
kept in the state, where deferral finds it.

The text that construction ends with is recorded whether it succeeds or not.  If it fails, the slots
it opened at deeper depths will never see their clearing marker, so they are unwound.
-/

namespace TwoPhase.Interpreter

variable (rounds : Nat) (again : Again)

/-- The unit that is being constructed. -/
def State.constructing? (s : State) : Option UnitId := s.units.head?.map (·.id)

/-- Hands the buffer of the innermost unit over. -/
def State.withBuffer (s : State) (buffer : Buffer) : State :=
  { s with units :=
    match s.units with
    | [] => []
    | unit :: outer => { unit with buffer } :: outer }

/-- The buffer of the innermost unit, or another where there is no unit. -/
def State.bufferOr (s : State) (outside : Buffer) : Buffer :=
  (s.units.head?.map (·.buffer)).getD outside

/-- Runs the body of a `begin` block, one deeper, on top of a parse that nests some levels deep. -/
def beginBlock (levels : Nat) (body : Block) (span : Span) : Eval Unit := do
  let s ← get
  let unit := s.constructing?
  let frame : Frame := ⟨s!"{s.unitName}::BEGIN", .beginBlock, some span⟩
  set { s with depth := s.depth + 1, nesting := s.nesting + levels }
  Run.ensuring
    (inCodeOf unit (inFrame frame none (do let _ ← again (.block body))))
    fun s => { s with depth := s.depth - 1, nesting := s.nesting - levels }

/-- The interpreter as the host of a parser. -/
def host : Host State where
  resolveGlobal name s :=
    (s.globals.cell name, { s with globals := s.globals.ensure name })
  installSub name function s :=
    let sub : Sub := ⟨s.nextId, name, function, none, s.constructing?⟩
    { s with globals := s.globals.define name (.sub sub), nextId := s.nextId + 1 }
  runBegin left body span := fun (buffer, s) =>
    let block := beginBlock again (rounds - left) body span
    let begun := Run.mapError block fun _ e => .failedBegin span e none
    (begun (s.withBuffer buffer)).mapState fun s => (s.bufferOr buffer, s)
  nesting := State.nesting

/-- A `begin` block finds the buffer of the parser in the state, and the parser goes on with what
the block leaves of it. -/
theorem host_runBegin (left : Nat) (body : Block) (span : Span) (buffer : Buffer) (s : State) :
    (host rounds again).runBegin left body span (buffer, s) =
      match beginBlock again (rounds - left) body span (s.withBuffer buffer) with
      | .value a t => .value a (t.bufferOr buffer, t)
      | .error e t => .error (.failedBegin span e none) (t.bufferOr buffer, t)
      | .cutOff => .cutOff := by
  simp only [host, Run.mapError]
  cases beginBlock again (rounds - left) body span (s.withBuffer buffer) <;> rfl

/-- Adds a unit to those under construction. -/
def State.enterUnit (s : State) (name : String) (origin : UnitOrigin) (path : Option String)
    (source : String) : State :=
  let unit : Construction := ⟨default, origin, name, s.records.nextId⟩
  { s with
    records := s.records.push ⟨name, path, origin, source, source⟩, units := unit :: s.units }

/-- Takes the innermost unit from those under construction, and records its text. -/
def State.leaveUnit (s : State) (id : UnitId) (text : String) : State :=
  { s with units := s.units.tail, records := s.records.finish id text }

/-- Constructs the unit that was entered last, at some construction depth. -/
def constructEntered (name : String) (origin : UnitOrigin) (source : String) (id : UnitId)
    (depth : Nat) : Run State CompileError CompiledUnit := fun s =>
  match Parser.runUnit (host rounds again) rounds (.start source s) with
  | .value body ⟨buffer, _, s⟩ =>
    let text := buffer.source
    .value ⟨name, origin, body, text, id⟩ (s.leaveUnit id text)
  | .error e ⟨buffer, _, s⟩ => .error (e.inUnit id) ((s.leaveUnit id buffer.source).unwindTo depth)
  | .cutOff => .cutOff

/-- Constructs a unit. -/
def construct (name : String) (origin : UnitOrigin) (path : Option String) (source : String) :
    Run State CompileError CompiledUnit := fun s =>
  let id := s.records.nextId
  let depth := s.depth
  constructEntered rounds again name origin source id depth (s.enterUnit name origin path source)

/-- A unit is entered, parsed and left, however the parse ends. -/
theorem construct_apply (name : String) (origin : UnitOrigin) (path : Option String)
    (source : String) (s : State) :
    construct rounds again name origin path source s =
      match Parser.runUnit (host rounds again) rounds
          (.start source (s.enterUnit name origin path source)) with
      | .value body p => .value ⟨name, origin, body, p.buffer.source, s.records.nextId⟩
          (p.host.leaveUnit s.records.nextId p.buffer.source)
      | .error e p => .error (e.inUnit s.records.nextId)
          ((p.host.leaveUnit s.records.nextId p.buffer.source).unwindTo s.depth)
      | .cutOff => .cutOff := by
  simp only [construct, constructEntered]
  cases Parser.runUnit (host rounds again) rounds
    (.start source (s.enterUnit name origin path source)) <;> rfl

/-- Runs a constructed unit, and gives the value of its last statement. -/
def execute (unit : CompiledUnit) : Eval Value := do
  let flow ← withFrame ⟨unit.name, .unit, none⟩
    (inCodeOf (some unit.id) (inDetachedScope none (again (.block unit.body))))
  return flow.value

/-- Constructs a unit at run time. -/
def constructNow (name : String) (origin : UnitOrigin) (path : Option String) (source : String) :
    Eval CompiledUnit :=
  Run.mapError (construct rounds again name origin path source) fun s e =>
    s.raised (.construction e)

/-- The name of units made of evaluated strings. -/
def evalUnitName : String := "(eval)"

/-- Constructs and runs a string. -/
def evalString (text : String) : Eval Value := do
  let unit ← constructNow rounds again evalUnitName .stringEval none text
  execute again unit

/-! ## Modules -/

/-- Looks for the file of a module in some directories. -/
def findModuleFile (name : String) : List String → Eval (String × String)
  | [] => raise (.unknownModule name)
  | dir :: dirs => do
    let path := Path.join dir (Path.ofModule name)
    modify fun s => { s with consulted := path :: s.consulted }
    match (← get).files path with
    | .text source => return (path, source)
    | .invalidText => raise (.unreadableModule path "stream did not contain valid UTF-8")
    | _ => findModuleFile name dirs

/-- Changes what is known of a module. -/
def State.setModule (s : State) (name : String) (entry : Option ModuleEntry) : State :=
  { s with modules := match entry with
    | some entry => s.modules.insert name entry
    | none => s.modules.erase name }

/-- Loads a module: constructs and runs its text, and puts `entry` back in the module table if
that fails.  The module counts as loaded from the start, so requiring itself does nothing. -/
def load (name : String) (path : Option String) (source : String) (entry : Option ModuleEntry) :
    Eval Value := do
  modify (·.setModule name (some .loaded))
  let result ← Run.attempt (do
    let unit ← constructNow rounds again name .required path source
    execute again unit)
  match result with
  | .ok _ => return .bool true
  | .error e =>
    modify (·.setModule name entry)
    throw e

/-- Loads a module that is not loaded yet. -/
def require (name : String) : Eval Value := do
  let s ← get
  match s.modules[name]? with
  | some .loaded => return .bool true
  | some (.registered source) => load rounds again name none source (some (.registered source))
  | none =>
    let (path, source) ← findModuleFile name s.modulePaths
    load rounds again name (some path) source none

end TwoPhase.Interpreter
