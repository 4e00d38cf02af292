import TwoPhase.Text.Blank

/-!
# Injection modes

Injected text goes in right after the last consumed token, or at the start of the next line.  The
mode is chosen by name; blanks around the name and the case of its letters do not matter.
-/

namespace TwoPhase

/-- Where injected text goes. -/
inductive InjectionMode where
  /-- Right after the last consumed token. -/
  | precise
  /-- At the start of the next line. -/
  | line
  deriving DecidableEq, Inhabited, Repr

namespace InjectionMode

def name : InjectionMode → String
  | precise => "precise"
  | line => "line"

/-- A name as it is compared: trimmed, with ASCII letters in lower case. -/
def normalize (text : String) : String := String.ofList ((Text.trim text).toList.map Char.toLower)

/-- The mode of a name; an unknown name is given back as it was compared. -/
def parse (text : String) : Except String InjectionMode :=
  match normalize text with
  | "precise" => .ok precise
  | "line" => .ok line
  | "filter" => .ok line
  | other => .error other

/-- The message for an unknown name. -/
def unknownMessage (name : String) : String :=
  s!"unknown injection mode `{name}` (expected `precise` or `line`)"

/-- The mode that an environment variable selects; precise if it is unset or makes no sense. -/
def ofVariable (value : Option String) : InjectionMode :=
  match value.map parse with
  | some (.ok mode) => mode
  | _ => precise

end InjectionMode

end TwoPhase
