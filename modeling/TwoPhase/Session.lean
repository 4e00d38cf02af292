import TwoPhase.Interpreter.Code

/-!
# Sessions

What a program that embeds an interpreter can do with it.  Every operation is a run on the state of
the interpreter, with a bound on how deep code may nest and how often a loop may go round; beyond
it, the run has no outcome.
-/

namespace TwoPhase.Session

open Interpreter

variable (bound : Nat)

/-- Why constructing and running a unit failed. -/
inductive RunError where
  | compile (error : CompileError)
  | runtime (error : EvalError)

namespace RunError

def diagnostic : RunError → Diagnostic
  | compile error => error.diagnostic
  | runtime error => EvalError.diagnostic error

def message : RunError → String
  | compile error => error.message
  | runtime error => error.kind.message

/-- The unit that the spans of the diagnostic point into. -/
def unit? : RunError → Option UnitId
  | compile error => error.unit?
  | runtime error => error.unit

def hookError? : RunError → Option HookError
  | compile error => error.hookError?
  | runtime error => error.kind.hookError?

end RunError

/-- An interpreter that has done nothing yet. -/
def start (settings : Settings) : State := .initial settings

/-- Constructs a main unit, which may be given a name and the file that it was read from. -/
def compile (source : String) (name path : Option String) :
    Run State CompileError CompiledUnit := fun s =>
  construct bound (run bound) (name.getD s.mainUnit) .main path source s

/-- Runs a constructed unit. -/
def execute (unit : CompiledUnit) : Eval Value := Interpreter.execute (run bound) unit

/-- Constructs and runs a main unit. -/
def runSource (source : String) : Run State RunError Value := do
  let unit ← Run.mapError (compile bound source none none) fun _ => .compile
  Run.mapError (execute bound unit) fun _ => .runtime

/-- Makes a text loadable as a module. -/
def addModule (name source : String) (s : State) : State :=
  s.setModule name (some (.registered source))

/-- Calls a value. -/
def call (callee : Value) (args : List Value) : Eval Value :=
  callValue bound (run bound) callee args (.point 0)

/-- Puts a callable off to the matching point of run time. -/
def atRuntime (callable : Value) : Eval Unit := defer callable false

/-- Puts a callable off to the exit of the block around it. -/
def afterRuntime (callable : Value) : Eval Unit := defer callable true

/-- Splices text into the unit under construction. -/
def lexStuff (text : String) : Eval Unit := Interpreter.lexStuff text

/-- The value of a global, if it is set. -/
def global? (s : State) (name : String) : Option Value := s.globals.lookup? name

/-- The warnings since they were last taken. -/
def takeWarnings (s : State) : List UnitWarning × State :=
  (s.warnings.toList, { s with warnings := #[] })

/-- The text printed since it was last taken. -/
def takeOutput (s : State) : String × State :=
  let (text, output) := s.output.take
  (text, { s with output })

/-- The name and text that spans of a unit point into. -/
def sourceText? (s : State) (unit : Option UnitId) : Option SourceText :=
  (unit.bind s.records.get?).map (·.sourceText)

end TwoPhase.Session
