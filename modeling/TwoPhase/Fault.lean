import TwoPhase.Value
import TwoPhase.Backtrace
import TwoPhase.Diagnostic.Basic
import TwoPhase.Token.Basic

/-!
# Faults

What can go wrong, as causes: a syntax error, a failed `begin`, or a fault of running code.  The
three are intertwined, since a `begin` fails by a fault and running code may construct units.  Each
has one message, one code, and one diagnostic.
-/

namespace TwoPhase

/-! ## Syntax errors -/

/-- What is wrong with the text of a unit. -/
inductive ParseFault where
  | lexical (error : LexError) (text : String)
  /-- Something else was expected; `found` says what there is. -/
  | expected (what found : String)
  /-- An identifier was expected. -/
  | expectedIdentifier (found : String)
  | expectedExpression (found : String)
  | unclosed (delimiter : Char) (openedAt : Span)
  /-- A lexical name cannot be a path. -/
  | pathAsLexicalName (path : String)
  | returnOutsideCallable
  | invalidTarget
  /-- Anything else, in the words of whoever raised it. -/
  | other (code : Code) (message label : String)
  deriving DecidableEq, Inhabited, Repr

namespace ParseFault

def code : ParseFault → Code
  | lexical .unterminatedString _ => .unterminatedString
  | lexical .invalidCharacter _ => .invalidCharacter
  | lexical .integerOutOfRange _ => .integerOutOfRange
  | expected .. => .unexpectedToken
  | expectedIdentifier _ => .expectedIdentifier
  | expectedExpression _ => .expectedExpression
  | unclosed .. => .unclosedDelimiter
  | pathAsLexicalName _ => .expectedIdentifier
  | returnOutsideCallable => .returnOutsideCallable
  | invalidTarget => .unexpectedToken
  | other code _ _ => code

def message : ParseFault → String
  | lexical .unterminatedString _ => "unterminated string literal"
  | lexical .invalidCharacter text => s!"invalid character `{text}`"
  | lexical .integerOutOfRange text => s!"integer literal `{text}` is out of range"
  | expected what found => s!"expected {what}, found {found}"
  | expectedIdentifier found => s!"expected identifier, found {found}"
  | expectedExpression found => s!"expected expression, found {found}"
  | unclosed delimiter _ => s!"unclosed delimiter `{delimiter}`"
  | pathAsLexicalName path => s!"expected identifier, found path `{path}`"
  | returnOutsideCallable => "`return` outside of a sub or closure"
  | invalidTarget => "invalid assignment target"
  | other _ message _ => message

/-- What the primary label says; the message stands in for an empty label. -/
def label : ParseFault → String
  | lexical .unterminatedString _ => "string starts here"
  | lexical .invalidCharacter _ => "not valid here"
  | lexical .integerOutOfRange _ => "does not fit in 64 bits"
  | expected what _ => s!"expected {what}"
  | expectedIdentifier _ => "expected identifier"
  | expectedExpression _ => "expected expression here"
  | unclosed .. => "reached end of input"
  | pathAsLexicalName _ => "lexical names cannot contain `::`"
  | returnOutsideCallable => "not inside a sub or closure"
  | invalidTarget => "only variables can be assigned to"
  | other _ _ label => label

/-- Where an unclosed delimiter was opened. -/
def openedAt? : ParseFault → Option Span
  | unclosed _ span => some span
  | _ => none

end ParseFault

/-- A syntax error and where it is. -/
structure ParseError where
  fault : ParseFault
  span : Span
  deriving DecidableEq, Inhabited, Repr

namespace ParseError

def code (e : ParseError) : Code := e.fault.code

def message (e : ParseError) : String := e.fault.message

def diagnostic (e : ParseError) : Diagnostic :=
  let label := if e.fault.label = "" then e.message else e.fault.label
  let d := (Diagnostic.error e.code e.message).withLabel e.span label
  match e.fault.openedAt? with
  | some span => d.withSecondaryLabel span "unclosed delimiter opened here"
  | none => d

end ParseError

/-! ## Faults of running code -/

/-- A fault that was raised: where, in which unit, and what was being called. -/
structure Raised (κ : Type) where
  kind : κ
  span : Option Span
  unit : Option UnitId
  backtrace : Option Backtrace
  /-- The call frames that were live when it was raised, innermost first. -/
  frames : List Frame
  deriving Inhabited

namespace Raised

variable {κ : Type}

/-- A fault raised in some call frames, which has not been located yet. -/
def amid (frames : List Frame) (kind : κ) : Raised κ := ⟨kind, none, none, none, frames⟩

/-- A fault raised outside of all calls, which has not been located yet. -/
def new (kind : κ) : Raised κ := amid [] kind

/-- Locates a fault, as far as it has no location closer to its origin. -/
def orLocation (e : Raised κ) (span : Span) (unit : Option UnitId) : Raised κ :=
  { e with span := e.span.or (some span), unit := e.unit.or unit }

end Raised

/-- A name that has no value, by what the parser resolved it to. -/
inductive UnboundName where
  | global (name : String)
  | lexical (name : String)
  deriving DecidableEq, Inhabited, Repr

def UnboundName.name : UnboundName → String
  | global name => name
  | lexical name => name

mutual

/-- Why running code fails. -/
inductive Fault where
  /-- Raised on purpose. -/
  | died (message : String)
  | undefinedVariable (unbound : UnboundName)
  | undefinedSub (name : String)
  | binaryType (op : BinaryOp) (left right : String)
  | unaryType (op : UnaryOp) (operand : String)
  | argumentType (name expected got : String)
  | arity (name : String) (expected got : Nat)
  | notCallable (typeName : String)
  | integerOverflow (op : String)
  | divisionByZero
  | callDepth (limit : Nat)
  /-- The dispatch function was loaded and not called. -/
  | dispatchAsValue
  | hook (error : HookError)
  | unknownModule (name : String)
  | unreadableModule (path message : String)
  /-- A unit could not be constructed at run time. -/
  | construction (error : CompileError)

/-- Why a unit could not be constructed, and which unit it was. -/
inductive CompileError where
  | parse (error : ParseError) (unit : Option UnitId)
  | failedBegin (span : Span) (cause : Raised Fault) (unit : Option UnitId)

end

/-- A located fault of running code. -/
abbrev EvalError := Raised Fault

instance : Inhabited Fault := ⟨.divisionByZero⟩
instance : Inhabited CompileError := ⟨.parse default none⟩

def HookError.code : HookError → Code
  | notConstructing => .notConstructing
  | inject .noUnit => .notConstructing
  | stringEval => .insideStringEval
  | inject .stringEval => .insideStringEval
  | noSlot _ => .nothingToClear

namespace CompileError

def code : CompileError → Code
  | parse error _ => error.code
  | failedBegin .. => .beginFailed

def unit? : CompileError → Option UnitId
  | parse _ unit => unit
  | failedBegin _ _ unit => unit

/-- Names the unit that failed, unless an inner one is named already. -/
def inUnit (id : UnitId) : CompileError → CompileError
  | parse error unit => parse error (unit.or (some id))
  | failedBegin span cause unit => failedBegin span cause (unit.or (some id))

end CompileError

mutual

def Fault.message : Fault → String
  | .died message => message
  | .undefinedVariable unbound => s!"unknown identifier `{unbound.name}`"
  | .undefinedSub name => s!"undefined sub `{name}`"
  | .binaryType op left right => s!"cannot apply `{op.symbol}` to {left} and {right}"
  | .unaryType op operand => s!"cannot apply `{op.symbol}` to {operand}"
  | .argumentType name expected got => s!"`{name}` expects {expected}, got {got}"
  | .arity name expected got => s!"`{name}` takes {expected} argument(s), got {got}"
  | .notCallable typeName => s!"{typeName} is not callable"
  | .integerOverflow op => s!"integer overflow in `{op}`"
  | .divisionByZero => "division by zero"
  | .callDepth limit => s!"call depth limit of {limit} exceeded"
  | .dispatchAsValue => "`at_runtime::dispatch` can only be called, not used as a value"
  | .hook error => error.message
  | .unknownModule name => s!"no module named `{name}`"
  | .unreadableModule path message => s!"cannot read `{path}`: {message}"
  | .construction error => error.message

def CompileError.message : CompileError → String
  | .parse error _ => error.message
  | .failedBegin _ ⟨kind, _, _, _, _⟩ _ =>
    "begin block failed; construction aborted: " ++ kind.message

end

mutual

/-- The hook error at the root of a fault, looking through failed constructions. -/
def Fault.hookError? : Fault → Option HookError
  | .hook error => some error
  | .construction error => error.hookError?
  | _ => none

def CompileError.hookError? : CompileError → Option HookError
  | .parse .. => none
  | .failedBegin _ ⟨kind, _, _, _, _⟩ _ => kind.hookError?

end

def Fault.code : Fault → Code
  | died _ => .died
  | undefinedVariable _ => .undefinedName
  | undefinedSub _ => .undefinedName
  | binaryType .. => .wrongType
  | unaryType .. => .wrongType
  | argumentType .. => .wrongType
  | arity .. => .wrongArity
  | notCallable _ => .notCallable
  | integerOverflow _ => .integerOverflow
  | divisionByZero => .divisionByZero
  | callDepth _ => .callDepthExceeded
  | dispatchAsValue => .wrongType
  | hook error => error.code
  | unknownModule _ => .moduleNotFound
  | unreadableModule .. => .unreadableSource
  | construction error => error.code

/-! ## Diagnostics -/

/-- A diagnostic with a backtrace as a note, unless there are no frames. -/
def Diagnostic.withBacktrace (d : Diagnostic) (backtrace : Option Backtrace) : Diagnostic :=
  match backtrace with
  | some b => if b.isEmpty then d else d.withNote b.note
  | none => d

namespace EvalError

def diagnostic (e : EvalError) : Diagnostic :=
  let d := Diagnostic.error e.kind.code e.kind.message
  let label := match e.kind with
    | .construction _ => "while constructing this unit"
    | _ => "raised here"
  let d := match e.span with
    | some span => d.withLabel span label
    | none => d
  d.withBacktrace e.backtrace

end EvalError

namespace CompileError

/-- The labels of one diagnostic share a source, so a cause in another unit is only named. -/
def diagnostic : CompileError → Diagnostic
  | parse error _ => error.diagnostic
  | failedBegin span cause unit =>
    let d := (Diagnostic.error .beginFailed "begin block failed; construction aborted").withLabel
      span "this block failed"
    let sameUnit := cause.unit.isNone || cause.unit == unit
    let d := match cause.span with
      | some inner => if sameUnit then d.withSecondaryLabel inner cause.kind.message else d
      | none => d
    let d := d.withNote s!"caused by [{cause.kind.code.id}]: {cause.kind.message}"
    d.withBacktrace cause.backtrace

end CompileError

end TwoPhase
