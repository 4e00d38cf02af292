import TwoPhase.Value
import TwoPhase.Diagnostic.Render

/-!
# Units

Spans point into the text of a unit as it was when its construction ended.  The table of units keeps
these texts, failed units included, in the order in which construction started.  It also keeps what
each unit was made of, so that one can say what splices did to it.
-/

namespace TwoPhase

/-- Where the text of a unit came from. -/
inductive UnitOrigin where
  /-- Handed to the interpreter. -/
  | main
  /-- Loaded by `require`. -/
  | required
  /-- A string given to `eval`, into which nothing may be spliced. -/
  | stringEval
  deriving DecidableEq, Inhabited, Repr

/-- What is kept of a unit. -/
structure UnitRecord where
  name : String
  /-- The file that the unit was read from, if any. -/
  path : Option String
  origin : UnitOrigin
  /-- The text that construction started with. -/
  given : String
  text : String
  deriving Inhabited

namespace UnitRecord

/-- How diagnostics refer to the unit. -/
def displayName (u : UnitRecord) : String := u.path.getD u.name

/-- The text that spans of the unit point into. -/
def sourceText (u : UnitRecord) : SourceText := ⟨u.displayName, u.text⟩

end UnitRecord

structure UnitTable where
  units : Array UnitRecord
  deriving Inhabited

namespace UnitTable

def empty : UnitTable := ⟨#[]⟩

/-- The unit that is added next. -/
def nextId (t : UnitTable) : UnitId := ⟨t.units.size⟩

/-- Adds a unit with the text that it starts with. -/
def push (t : UnitTable) (unit : UnitRecord) : UnitTable := ⟨t.units.push unit⟩

/-- Records the text that a unit ended with. -/
def finish (t : UnitTable) (id : UnitId) (text : String) : UnitTable :=
  ⟨t.units.modify id.index fun unit => { unit with text }⟩

def get? (t : UnitTable) (id : UnitId) : Option UnitRecord := t.units[id.index]?

def size (t : UnitTable) : Nat := t.units.size

def isEmpty (t : UnitTable) : Bool := t.units.isEmpty

end UnitTable

/-- A warning, and the unit that its spans point into. -/
structure UnitWarning where
  unit : UnitId
  diagnostic : Diagnostic
  deriving Inhabited

end TwoPhase
