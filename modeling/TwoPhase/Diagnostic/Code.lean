/-!
# Diagnostic codes

Every diagnostic carries a code: a letter for its severity and four digits, the first of which names
the phase that reports it.  Codes are listed in the order of their numbers.
-/

namespace TwoPhase

/-- What a diagnostic is about. -/
inductive Code where
  | unterminatedString
  | invalidCharacter
  | integerOutOfRange
  | unexpectedToken
  | expectedExpression
  | unclosedDelimiter
  | expectedIdentifier
  | returnOutsideCallable
  | beginFailed
  | moduleNotFound
  | unreadableSource
  | notConstructing
  | insideStringEval
  | nothingToClear
  | died
  | undefinedName
  | wrongType
  | wrongArity
  | notCallable
  | callDepthExceeded
  | divisionByZero
  | integerOverflow
  | extraTextBeforeInjection
  deriving DecidableEq, Inhabited, Repr

namespace Code

/-- All codes, in order. -/
def all : List Code :=
  [unterminatedString, invalidCharacter, integerOutOfRange, unexpectedToken, expectedExpression,
   unclosedDelimiter, expectedIdentifier, returnOutsideCallable, beginFailed, moduleNotFound,
   unreadableSource, notConstructing, insideStringEval, nothingToClear, died, undefinedName,
   wrongType, wrongArity, notCallable, callDepthExceeded, divisionByZero, integerOverflow,
   extraTextBeforeInjection]

/-- The code as shown to the user. -/
def id : Code → String
  | unterminatedString => "E0001"
  | invalidCharacter => "E0002"
  | integerOutOfRange => "E0003"
  | unexpectedToken => "E1001"
  | expectedExpression => "E1002"
  | unclosedDelimiter => "E1003"
  | expectedIdentifier => "E1004"
  | returnOutsideCallable => "E1005"
  | beginFailed => "E2001"
  | moduleNotFound => "E2002"
  | unreadableSource => "E2003"
  | notConstructing => "E3001"
  | insideStringEval => "E3002"
  | nothingToClear => "E3003"
  | died => "E4001"
  | undefinedName => "E4002"
  | wrongType => "E4003"
  | wrongArity => "E4004"
  | notCallable => "E4005"
  | callDepthExceeded => "E4006"
  | divisionByZero => "E4007"
  | integerOverflow => "E4008"
  | extraTextBeforeInjection => "W4001"

/-- One line on what the code means. -/
def summary : Code → String
  | unterminatedString => "string literal is missing its closing quote"
  | invalidCharacter => "character that cannot start a token"
  | integerOutOfRange => "integer literal does not fit in 64 bits"
  | unexpectedToken => "unexpected token"
  | expectedExpression => "expected an expression"
  | unclosedDelimiter => "delimiter opened but never closed"
  | expectedIdentifier => "expected an identifier"
  | returnOutsideCallable => "`return` outside a sub or closure"
  | beginFailed => "a `begin` block failed"
  | moduleNotFound => "`require` named a module that cannot be found"
  | unreadableSource => "source file could not be read"
  | notConstructing => "deferral or injection while no unit is under construction"
  | insideStringEval => "deferral or injection from inside a string eval"
  | nothingToClear => "clear requested for a depth with no pending deferred blocks"
  | died => "error raised with `die`"
  | undefinedName => "name is not defined"
  | wrongType => "value has the wrong type for this operation"
  | wrongArity => "wrong number of arguments"
  | notCallable => "value is not callable"
  | callDepthExceeded => "call depth limit exceeded"
  | divisionByZero => "division by zero"
  | integerOverflow => "integer overflow"
  | extraTextBeforeInjection => "code after an injection point runs before the injected code"

/-- The code with a given written form. -/
def ofId? (text : String) : Option Code := all.find? (·.id == text)

def isWarning (c : Code) : Bool := c == extraTextBeforeInjection

end Code

end TwoPhase
