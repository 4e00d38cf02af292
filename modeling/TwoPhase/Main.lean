import TwoPhase.CommandLine

/-!
# The program

Reads what the command line needs, and writes what it says.  A command is a function of what paths
lead to, and names the paths at which it looked for modules; it is run again until all of them have
been read.
-/

namespace TwoPhase.Main

/-- Paths that have been read, and what they lead to. -/
abbrev Known := List (String × FileStatus)

/-- The error code of reading a directory as a file. -/
def directoryCode : UInt32 := 21

/-- What a path leads to. -/
def inspect (path : String) : IO FileStatus := do
  try
    return .ofBytes (← IO.FS.readBinFile path)
  catch e =>
    match e with
    | .noFileOrDirectory .. => return .missing
    | .inappropriateType _ code _ =>
      return if code = directoryCode then .directory else .unreadable FileStatus.notADirectory
    | _ => return .unreadable (toString e)

/-- Reads paths that have not been read. -/
def learn (known : Known) (paths : List String) : IO Known :=
  paths.foldlM (fun known path => do
    if (known.lookup path).isSome then return known
    return (path, ← inspect path) :: known) known

/-- How deep programs may nest and how often loops may go round. -/
def bound : Nat := Nat.pow 2 60

/-- Runs a command until it looks at no path that has not been read. -/
partial def run (args : List String) (injection : Option String) (known : Known) :
    IO CommandLine.Outcome := do
  let world : CommandLine.World := ⟨fun path => (known.lookup path).getD .missing, injection⟩
  match CommandLine.run? bound world args with
  | none => throw (.userError "the program ran out of bounds")
  | some outcome =>
    let more ← learn known outcome.consulted
    if more.length = known.length then return outcome else run args injection more

end TwoPhase.Main

def main (args : List String) : IO UInt32 := do
  let injection ← IO.getEnv "KILN_INJECTION"
  let known ← TwoPhase.Main.learn [] args
  let outcome ← TwoPhase.Main.run args injection known
  IO.print outcome.stdout
  IO.eprint outcome.stderr
  return outcome.exitCode.toUInt32
