import TwoPhase.Session

/-!
# The command line

What a command does is a function of its arguments, of what paths lead to and of one environment
variable.  Its outcome is an exit code and what is written to the two output streams.
-/

namespace TwoPhase.CommandLine

structure Outcome where
  exitCode : Nat
  stdout : String
  stderr : String
  /-- The paths at which modules were looked for. -/
  consulted : List String
  deriving Inhabited

namespace Outcome

/-- Success, with some output. -/
def success (stdout : String) : Outcome := ⟨0, stdout, "", []⟩

/-- Failure, with a message. -/
def failure (stderr : String) : Outcome := ⟨1, "", stderr, []⟩

end Outcome

/-- What commands depend on besides their arguments. -/
structure World where
  files : String → FileStatus
  /-- The environment variable that selects an injection mode, if it is set. -/
  injection : Option String

/-! ## Arguments -/

/-- What `run` and `check` are told. -/
structure Options where
  path : String
  /-- Left to the environment variable if it is not given. -/
  injection : Option InjectionMode
  deriving DecidableEq, Inhabited, Repr

namespace Options

def injectionOption : String := "--injection="

/-- Reads the arguments from left to right, given the path and mode read so far. -/
def parseFrom (path : Option String) (injection : Option InjectionMode) :
    List String → Except String Options
  | [] =>
    match path with
    | some path => .ok ⟨path, injection⟩
    | none => .error "missing file path"
  | arg :: args =>
    if arg.startsWith injectionOption then
      match InjectionMode.parse (String.ofList (arg.toList.drop injectionOption.length)) with
      | .ok mode => parseFrom path (some mode) args
      | .error name => .error (InjectionMode.unknownMessage name)
    else if arg.startsWith "-" then .error s!"unknown option '{arg}'"
    else match path with
      | none => parseFrom (some arg) injection args
      | some _ => .error s!"unexpected argument '{arg}'"

def parse (args : List String) : Except String Options := parseFrom none none args

end Options

/-! ## Scripts -/

/-- The text of a script, or the message that says why it cannot be read. -/
def readScript (world : World) (path : String) : Except String String :=
  match world.files path with
  | .text source => .ok source
  | .missing => .error s!"cannot find file '{path}'\n"
  | .invalidText => .error s!"'{path}' contains invalid UTF-8 data\n"
  | .directory => .error s!"error reading '{path}': {FileStatus.isADirectory}\n"
  | .unreadable reason => .error s!"error reading '{path}': {reason}\n"

/-- An interpreter for a script, which looks for modules next to it. -/
def startScript (world : World) (options : Options) (output : Output) : Interpreter.State :=
  Session.start { Settings.default with
    injection := options.injection.getD (InjectionMode.ofVariable world.injection)
    modulePaths := [Path.parent options.path]
    files := world.files
    output }

/-- A diagnostic against its unit, or against the script if it names none. -/
def report? (s : Interpreter.State) (script : SourceText) (unit : Option UnitId)
    (d : Diagnostic) : Option String :=
  d.render? false (some ((Session.sourceText? s unit).getD script))

/-- The warnings of a construction, each against its own unit. -/
def warnings? (s : Interpreter.State) (script : SourceText) : Option String := do
  let reports ← s.warnings.toList.mapM fun w => report? s script (some w.unit) w.diagnostic
  return String.join reports

/-- Ends with an error. -/
def failed? (s : Interpreter.State) (script : SourceText) (warnings : String)
    (error : Session.RunError) : Option Outcome := do
  let block ← report? s script error.unit? error.diagnostic
  let summary := Diagnostic.summary false 1 s.warnings.size
  return ⟨1, s.output.text, warnings ++ block ++ summary, s.consulted⟩

/-- Constructs a script and goes on with the unit. -/
def construct? (bound : Nat) (world : World) (options : Options) (source : String)
    (output : Output)
    (go : Interpreter.State → SourceText → String → CompiledUnit → Option Outcome) :
    Option Outcome := do
  let script : SourceText := ⟨options.path, source⟩
  let (compiled, s) ← (Session.compile bound source none (some options.path)).run?
    (startScript world options output)
  let warnings ← warnings? s script
  match compiled with
  | .ok unit => go s script warnings unit
  | .error e => failed? s script warnings (.compile e)

/-- Constructs and runs a script. -/
def runScript? (bound : Nat) (world : World) (options : Options) (source : String) :
    Option Outcome :=
  construct? bound world options source (.buffer "") fun s script warnings unit => do
    let (result, ended) ← (Session.execute bound unit).run? s
    match result with
    | .ok _ => return ⟨0, ended.output.text, warnings, ended.consulted⟩
    | .error e => failed? { ended with warnings := s.warnings } script warnings (.runtime e)

/-- Constructs a script and drops what it prints. -/
def checkScript? (bound : Nat) (world : World) (options : Options) (source : String) :
    Option Outcome :=
  construct? bound world options source .silent fun s _ warnings _ =>
    some ⟨0, s!"{options.path}: ok\n", warnings, s.consulted⟩

/-! ## Commands -/

def usage : String :=
  "Kiln

Usage: kiln <command> [options]

Commands:
  run <file.kn>        Construct and run a Kiln script
  check <file.kn>      Construct a script without running it
  help                 Show this help message
  version              Show version information

Options:
  --injection=<mode>   How deferred blocks are spliced into the
                       script: precise (default) or line

Environment:
  KILN_INJECTION       Default for --injection
  RUST_LOG             Tracing filter, e.g. kiln_hooks=debug

Examples:
  kiln run main.kn
  kiln run main.kn --injection=line
  kiln check lib.kn
"

def version : String := "Kiln 0.1.0-alpha.1\n"

/-- Whether a path looks like a script. -/
def isScript (path : String) : Bool :=
  (Path.extension? path).any fun ext => ext.toList.map Char.toLower == ['k', 'n']

/-- Reads arguments and a script, and goes on with both. -/
def withScript (world : World) (args : List String) (hint : String)
    (go : Options → String → Option Outcome) : Option Outcome :=
  match Options.parse args with
  | .error message => some (.failure (s!"error: {message}\n" ++ hint))
  | .ok options =>
    match readScript world options.path with
    | .error message => some (.failure message)
    | .ok source => go options source

/-- How a command is used. -/
def commandUsage (command : String) : String :=
  s!"Usage: kiln {command} <file.kn> [--injection=<mode>]\n"

/-- The outcome of a command; there is none beyond the bound. -/
def run? (bound : Nat) (world : World) (args : List String) : Option Outcome :=
  match args with
  | [] => some (.success usage)
  | command :: rest =>
    match command with
    | "run" => withScript world rest (commandUsage command) (runScript? bound world)
    | "check" => withScript world rest (commandUsage command) (checkScript? bound world)
    | "help" | "--help" | "-h" => some (.success usage)
    | "version" | "--version" | "-v" => some (.success version)
    | _ =>
      if isScript command then withScript world args "" (runScript? bound world)
      else some ⟨1, usage, s!"Unknown command: {command}\n\n", []⟩

end TwoPhase.CommandLine
