import TwoPhase.Span
import TwoPhase.Diagnostic.Code

/-!
# Diagnostics

A diagnostic is what a user sees when a unit fails to construct or to run, or when injected text
lands after code that will now run before it.  It says what happened, points at places in one unit
by labels, and adds notes and suggestions.
-/

namespace TwoPhase

inductive Severity where
  | error
  | warning
  deriving DecidableEq, Inhabited, Repr

namespace Severity

def name : Severity → String
  | error => "error"
  | warning => "warning"

end Severity

/-- A remark on a span; the primary ones mark where the problem is. -/
structure Label where
  span : Span
  message : String
  isPrimary : Bool
  deriving DecidableEq, Inhabited, Repr

structure Diagnostic where
  code : Code
  severity : Severity
  message : String
  labels : List Label
  notes : List String
  suggestions : List String
  deriving DecidableEq, Inhabited, Repr

namespace Diagnostic

/-- An error with nothing but a message. -/
def error (code : Code) (message : String) : Diagnostic := ⟨code, .error, message, [], [], []⟩

/-- A warning with nothing but a message. -/
def warning (code : Code) (message : String) : Diagnostic := ⟨code, .warning, message, [], [], []⟩

def withLabel (d : Diagnostic) (span : Span) (message : String) : Diagnostic :=
  { d with labels := d.labels ++ [⟨span, message, true⟩] }

def withSecondaryLabel (d : Diagnostic) (span : Span) (message : String) : Diagnostic :=
  { d with labels := d.labels ++ [⟨span, message, false⟩] }

def withNote (d : Diagnostic) (note : String) : Diagnostic :=
  { d with notes := d.notes ++ [note] }

def withSuggestion (d : Diagnostic) (suggestion : String) : Diagnostic :=
  { d with suggestions := d.suggestions ++ [suggestion] }

/-- Where the problem is: the span of the first primary label. -/
def primarySpan? (d : Diagnostic) : Option Span := (d.labels.find? (·.isPrimary)).map (·.span)

def isError (d : Diagnostic) : Bool := d.severity == .error

/-- The warning for code that is left on a line whose next line takes injected text. -/
def extraText (span : Span) (text : String) : Diagnostic :=
  (((warning .extraTextBeforeInjection s!"extra text '{text}' after call to lex_stuff").withLabel
    span "this text runs before the injected code").withNote
    "line-granular injection inserts at the start of the next line").withSuggestion
    "move the trailing text to its own line, or use KILN_INJECTION=precise"

/-- The plain form, with spans in place of source excerpts and without a final line end. -/
def plain (d : Diagnostic) : String :=
  let labels := d.labels.map fun label =>
    let arrow := if label.isPrimary then "-->" else "   "
    s!"\n  {arrow} {label.span.render}: {label.message}"
  let notes := d.notes.map fun note => s!"\n  = note: {note}"
  let suggestions := d.suggestions.map fun suggestion => s!"\n  = help: {suggestion}"
  s!"{d.severity.name} [{d.code.id}]: {d.message}"
    ++ String.join (labels ++ notes ++ suggestions)

end Diagnostic

end TwoPhase
