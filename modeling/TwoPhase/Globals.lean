import TwoPhase.NameMap
import TwoPhase.Value

/-!
# Globals

A global name stands for a cell, and constructed code holds the cell and not the name.  So a global
can be changed in two ways.  Setting the value of its cell shows in all code; binding the name to a
fresh cell leaves constructed code with the old one, which nothing but a direct write changes
any more.
-/

namespace TwoPhase

/-- A global variable.  It has no value if it was referred to but never set. -/
structure Cell where
  name : String
  value : Option Value
  /-- Whether the value was written in place: by an assignment, or as a sub of that name. -/
  written : Bool
  deriving Inhabited

/-- All cells ever made, and for each name the number of the cell that it stands for now. -/
structure Globals where
  cells : Array Cell
  names : NameMap Nat

namespace Globals

def empty : Globals := ⟨#[], ∅⟩

instance : Inhabited Globals := ⟨empty⟩

/-- The cell a name stands for, if any. -/
def get? (g : Globals) (name : String) : Option CellRef :=
  (g.names[name]?).map fun id => ⟨id, name⟩

def contains (g : Globals) (name : String) : Bool := (g.get? name).isSome

/-- The value of a cell. -/
def value? (g : Globals) (cell : CellRef) : Option Value := g.cells[cell.id]?.bind (·.value)

/-- The value of the cell that a name stands for. -/
def lookup? (g : Globals) (name : String) : Option Value := (g.get? name).bind g.value?

/-- The cell that is made next. -/
def nextCell (g : Globals) (name : String) : CellRef := ⟨g.cells.size, name⟩

/-- Binds a name to a fresh cell. -/
def bindFresh (g : Globals) (name : String) (value : Option Value) : Globals :=
  ⟨g.cells.push ⟨name, value, false⟩, g.names.insert name g.cells.size⟩

/-- The cell of a name, or the one that is made for it if there is none. -/
def cell (g : Globals) (name : String) : CellRef := (g.get? name).getD (g.nextCell name)

/-- Makes a cell for a name that has none. -/
def ensure (g : Globals) (name : String) : Globals :=
  if g.contains name then g else g.bindFresh name none

/-- Writes the value of a cell in place. -/
def set (g : Globals) (cell : CellRef) (value : Value) : Globals :=
  { g with cells := g.cells.modify cell.id fun c =>
      { c with value := some value, written := true } }

/-- Sets the value of a name's cell in place. -/
def define (g : Globals) (name : String) (value : Value) : Globals :=
  let cell := g.cell name
  (g.ensure name).set cell value

/-- Binds a name to a fresh cell with a value; gives the cell that it stood for. -/
def replace (g : Globals) (name : String) (value : Value) : Option CellRef × Globals :=
  (g.get? name, g.bindFresh name (some value))

/-- Unbinds a name; gives the cell that it stood for. -/
def remove (g : Globals) (name : String) : Option CellRef × Globals :=
  (g.get? name, { g with names := g.names.erase name })

end Globals

end TwoPhase
