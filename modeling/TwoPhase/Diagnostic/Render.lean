import TwoPhase.Text.Position
import TwoPhase.Diagnostic.Basic

/-!
# Rendering diagnostics for a terminal

A diagnostic is one block of lines.  Without a source, labels show their raw spans.  With one, each
label shows `path:line:column`, the line it points into, and an underline.  A rendered text is first
a list of painted pieces, and only then flattened with or without styling, so both forms always hold
the same words.

An excerpt does not exist where a label starts inside a character; rendering then has no result.
-/

namespace TwoPhase

/-- When to style the output. -/
inductive ColorMode where
  | auto
  | always
  | never
  deriving DecidableEq, Inhabited, Repr

namespace ColorMode

/-- Whether to style; `auto` styles for a terminal only. -/
def styles (mode : ColorMode) (isTerminal : Bool) : Bool :=
  match mode with
  | auto => isTerminal
  | always => true
  | never => false

end ColorMode

/-- The styles in use. -/
inductive Paint where
  | error
  | warning
  | help
  | strong
  | secondary
  deriving DecidableEq, Inhabited, Repr

namespace Paint

/-- The sequence that opens a style. -/
def opening : Paint → String
  | error => "\x1b[1;31m"
  | warning => "\x1b[1;33m"
  | help => "\x1b[1;32m"
  | strong => "\x1b[1m"
  | secondary => "\x1b[1;34m"

/-- The sequence that closes any style. -/
def reset : String := "\x1b[0m"

def ofSeverity : Severity → Paint
  | .error => error
  | .warning => warning

def ofLabel (label : Label) : Paint := if label.isPrimary then error else secondary

end Paint

/-- A piece of output, in some style or none. -/
structure Piece where
  paint : Option Paint
  text : String
  deriving DecidableEq, Inhabited, Repr

namespace Piece

def plain (text : String) : Piece := ⟨none, text⟩

def painted (paint : Paint) (text : String) : Piece := ⟨some paint, text⟩

/-- The piece as written, with its style opened and closed if `colors` asks for it. -/
def write (colors : Bool) (piece : Piece) : String :=
  match piece.paint, colors with
  | some paint, true => paint.opening ++ piece.text ++ Paint.reset
  | _, _ => piece.text

/-- Several pieces in a row. -/
def writeAll (colors : Bool) (pieces : List Piece) : String :=
  String.join (pieces.map (write colors))

end Piece

/-- The text that labels point into, and the name it is reported under. -/
structure SourceText where
  path : String
  text : String
  deriving DecidableEq, Inhabited, Repr

namespace SourceText

/-- A place in the source, as `path:line:column`. -/
def location (source : SourceText) (place : Text.Position) : String :=
  s!"{source.path}:{place.line}:{place.column}"

end SourceText

/-- Where a span starts, the line around that place, and the number of marks under the line. -/
structure Excerpt where
  place : Text.Position
  line : List Char
  width : Nat
  deriving DecidableEq, Inhabited, Repr

namespace Excerpt

/-- The number of characters of the line before the first mark. -/
def indent (e : Excerpt) : Nat := e.place.column - 1

end Excerpt

/-- The excerpt for a span.  The underline ends with the line and is at least one mark wide. -/
def SourceText.excerpt? (source : SourceText) (span : Span) : Option Excerpt := do
  let cs := source.text.toList
  let line ← Text.lineAt? cs span.start
  let place := Text.position cs span.start
  let room := max (line.length - (place.column - 1)) 1
  return ⟨place, line, min (max span.length 1) room⟩

namespace Diagnostic

/-- The lines of one label. -/
def labelPieces? (source : Option SourceText) (label : Label) : Option (List Piece) := do
  let arrow := Piece.plain (if label.isPrimary then "  --> " else "      ")
  let message := Piece.painted (Paint.ofLabel label) label.message
  match source with
  | none => return [arrow, .plain label.span.render, .plain ": ", message, .plain "\n"]
  | some source =>
    let excerpt ← source.excerpt? label.span
    let mark := if label.isPrimary then '^' else '-'
    return [arrow, .painted .strong (source.location excerpt.place), .plain ": ", message,
      .plain "\n", .plain s!"   | {String.ofList excerpt.line}\n",
      .plain ("   | " ++ String.ofList (List.replicate excerpt.indent ' ')),
      .painted (Paint.ofLabel label) (String.ofList (List.replicate excerpt.width mark)),
      .plain "\n"]

/-- The block of one diagnostic, with the blank line that ends it. -/
def pieces? (source : Option SourceText) (d : Diagnostic) : Option (List Piece) := do
  let heading : List Piece := [.painted (Paint.ofSeverity d.severity) d.severity.name,
    .painted .strong s!"[{d.code.id}]", .plain s!": {d.message}\n"]
  let labels : List (List Piece) ← d.labels.mapM (labelPieces? source)
  let notes : List Piece := d.notes.flatMap fun note =>
    [.plain "  = ", .painted .strong "note", .plain s!": {note}\n"]
  let suggestions : List Piece := d.suggestions.flatMap fun suggestion =>
    [.plain "  = ", .painted .help "help", .plain s!": {suggestion}\n"]
  let blank : List Piece := [.plain "\n"]
  return heading ++ labels.flatten ++ notes ++ suggestions ++ blank

/-- The rendered block; `none` where a label has no excerpt. -/
def render? (colors : Bool) (source : Option SourceText) (d : Diagnostic) : Option String :=
  (d.pieces? source).map (Piece.writeAll colors)

/-- A count and its noun, in the plural unless the count is one. -/
def counted (count : Nat) (noun : String) : String :=
  if count = 1 then s!"1 {noun}" else s!"{count} {noun}s"

/-- The closing line of a report. -/
def summaryPieces (errors warnings : Nat) : List Piece :=
  let count := counted warnings "warning"
  let emitted := s!"{count} emitted"
  match errors, warnings with
  | 0, 0 => []
  | 0, _ => [.painted .warning "warning", .plain s!": {emitted}\n"]
  | _, _ =>
    let cause := if errors = 1 then "previous error" else s!"{errors} previous errors"
    let more := if warnings = 0 then "" else s!"; {emitted}"
    [.painted .error "error", .plain s!": aborting due to {cause}{more}\n"]

/-- The closing line as written. -/
def summary (colors : Bool) (errors warnings : Nat) : String :=
  Piece.writeAll colors (summaryPieces errors warnings)

end Diagnostic

end TwoPhase
