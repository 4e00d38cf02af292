import TwoPhase.Fault

/-!
# Operators

Arithmetic is exact on 64-bit integers: a result that does not fit is a fault and never wraps.
Division truncates toward zero.  The remainder goes with the quotient, so where the quotient does
not fit there is no remainder either.

`&&` and `||` do not come here: they may leave their right side alone.
-/

namespace TwoPhase

/-- The result of an operator as a value, where 64 bits hold it. -/
def fit64 (op : String) (result : Int) : Except Fault Value :=
  let value := Int64.ofInt result
  if value.toInt = result then .ok (.int value) else .error (.integerOverflow op)

namespace BinaryOp

/-- What a comparison says of an ordering; `none` if the operator compares nothing. -/
def holds? (op : BinaryOp) (ordering : Ordering) : Option Bool :=
  match op with
  | less => some ordering.isLT
  | lessEqual => some ordering.isLE
  | greater => some ordering.isGT
  | greaterEqual => some ordering.isGE
  | _ => none

/-- The fault of an operator that has no meaning for two values. -/
def mismatch (op : BinaryOp) (left right : Value) : Except Fault Value :=
  .error (.binaryType op left.typeName right.typeName)

/-- What a comparison says of two values. -/
def comparison (op : BinaryOp) (ordering : Ordering) (left right : Value) : Except Fault Value :=
  match op.holds? ordering with
  | some truth => .ok (.bool truth)
  | none => op.mismatch left right

/-- The operator on two integers. -/
def onInts (op : BinaryOp) (a b : Int64) : Except Fault Value :=
  let x := a.toInt
  let y := b.toInt
  match op with
  | add => fit64 op.symbol (x + y)
  | sub => fit64 op.symbol (x - y)
  | mul => fit64 op.symbol (x * y)
  | div => if y = 0 then .error .divisionByZero else fit64 op.symbol (x.tdiv y)
  | mod =>
    if y = 0 then .error .divisionByZero
    else do
      let _ ← fit64 op.symbol (x.tdiv y)
      fit64 op.symbol (x.tmod y)
  | _ => op.comparison (compare x y) (.int a) (.int b)

/-- The operator on two strings.  Strings are ordered by code points. -/
def onStrings (op : BinaryOp) (a b : String) : Except Fault Value :=
  match op with
  | add => .ok (.str (a ++ b))
  | _ => op.comparison (compare a b) (.str a) (.str b)

/-- The operator on two values.  A string takes in the display form of anything added to it. -/
def apply (op : BinaryOp) (left right : Value) : Except Fault Value :=
  match op with
  | equal => .ok (.bool (left.same right))
  | notEqual => .ok (.bool !(left.same right))
  | _ => match left, right with
    | .int a, .int b => op.onInts a b
    | .str a, .str b => op.onStrings a b
    | .str a, _ => if op = add then .ok (.str (right.displayOnto a)) else op.mismatch left right
    | _, .str b => if op = add then .ok (.str (left.display ++ b)) else op.mismatch left right
    | _, _ => op.mismatch left right

end BinaryOp

namespace UnaryOp

/-- The operator on a value. -/
def apply (op : UnaryOp) (operand : Value) : Except Fault Value :=
  match op, operand with
  | not, value => .ok (.bool !value.isTruthy)
  | neg, .int n => fit64 neg.symbol (-n.toInt)
  | neg, value => .error (.unaryType neg value.typeName)

end UnaryOp

end TwoPhase
