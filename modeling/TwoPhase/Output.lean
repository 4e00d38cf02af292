/-!
# Printed output

What a program prints is kept until someone takes it, or is dropped at once.
-/

namespace TwoPhase

inductive Output where
  /-- Keeps the text printed so far. -/
  | buffer (text : String)
  /-- Drops everything. -/
  | silent
  deriving DecidableEq, Inhabited, Repr

namespace Output

/-- Prints a line. -/
def println (o : Output) (line : String) : Output :=
  match o with
  | buffer text => buffer (text ++ line ++ "\n")
  | silent => silent

/-- The text kept. -/
def text : Output → String
  | buffer text => text
  | silent => ""

/-- The text kept, which is then forgotten. -/
def take (o : Output) : String × Output :=
  match o with
  | buffer text => (text, buffer "")
  | silent => ("", silent)

end Output

end TwoPhase
