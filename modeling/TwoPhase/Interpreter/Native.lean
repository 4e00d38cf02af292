import TwoPhase.Interpreter.Construct

/-!
# Native subs

| Sub                    | Phase        | Effect                                    |
|------------------------|--------------|-------------------------------------------|
| `print(a, ...)`        | any          | one line, the arguments one by one        |
| `at_runtime(f)`        | construction | puts `f` off to the matching runtime point |
| `after_runtime(f)`     | construction | runs `f` when that runtime block exits    |
| `lex_stuff(text)`      | construction | splices `text` into the unit              |
| `at_runtime::clear(d)` | construction | the clearing marker, injected only        |
| `eval(text)`           | any          | constructs and runs `text`                |
| `require(name)`        | any          | constructs and runs a module once         |
| `callers()`            | any          | frame names, innermost first              |
| `die(a, ...)`          | any          | raises an error                           |
| `len(x)`, `str(x)`     | any          | length of a string or list, display form  |

Native subs have no call frame of their own.  The probes are for programs that embed an interpreter;
they ignore arguments they have no use for.
-/

namespace TwoPhase.Interpreter

variable (rounds : Nat) (again : Again)

/-- The only argument of a sub that takes one. -/
def oneArg (name : String) (args : List Value) : Eval Value :=
  match args with
  | [value] => pure value
  | _ => raise (.arity name 1 args.length)

/-- The only argument of a sub that takes one string. -/
def oneString (name : String) (args : List Value) : Eval String := do
  match ← oneArg name args with
  | .str text => return text
  | value => raise (.argumentType name "str" value.typeName)

/-- The depth that an argument stands for. -/
def oneDepth (name : String) (args : List Value) : Eval Nat := do
  let value ← oneArg name args
  let refused : Eval Nat := raise (.argumentType name "a depth" value.typeName)
  match value with
  | .int n => if n < 0 then refused else return n.toInt.toNat
  | _ => refused

/-- The number of characters of a string, or of items of a list. -/
def length (name : String) (args : List Value) : Eval Value := do
  match ← oneArg name args with
  | .str text => return .int (Int64.ofNat text.length)
  | .list items => return .int (Int64.ofNat items.size)
  | value => raise (.argumentType name "str or list" value.typeName)

def println (line : String) : Eval Unit :=
  modify fun s => { s with output := s.output.println line }

def callBuiltin (sub : Builtin) (args : List Value) : Eval Value := do
  match sub with
  | .print =>
    println (Value.concat args)
    return .nil
  | .atRuntime =>
    let callable ← oneArg sub.name args
    defer callable false
    return .nil
  | .afterRuntime =>
    let callable ← oneArg sub.name args
    defer callable true
    return .nil
  | .lexStuff =>
    let text ← oneString sub.name args
    lexStuff text
    return .nil
  | .clear =>
    let depth ← oneDepth sub.name args
    clearDepth depth
    return .nil
  | .eval =>
    let text ← oneString sub.name args
    evalString rounds again text
  | .require =>
    let name ← oneString sub.name args
    require rounds again name
  | .callers =>
    match args with
    | [] =>
      modify fun s => { s with asked := s.asked + 1 }
      return .list ((← get).calls.names.map .str).toArray
    | _ => raise (.arity sub.name 0 args.length)
  | .die => raise (.died (Value.concat args))
  | .len => length sub.name args
  | .str => return .str (← oneArg sub.name args).display

/-- The first argument as a name. -/
def slotName (args : List Value) : String := (args.head?.map Value.display).getD ""

def natValue (n : Nat) : Value := .int (Int64.ofNat n)

def callProbe (probe : Probe) (args : List Value) : Eval Value := do
  match probe with
  | .depth => return natValue (← get).depth
  | .snapshot =>
    let s ← get
    let bound := match s.boundDispatch? with
      | some fn => natValue fn.depth
      | none => .nil
    return .list #[.list (s.pendingDepths.map natValue).toArray, bound]
  | .attempt =>
    match args with
    | [] => raise (.died "try needs a callable")
    | callee :: args =>
      match ← Run.attempt (again (.call callee args (.point 0))) with
      | .ok value => return .list #[.bool true, value]
      | .error e => return .list #[.bool false, .str e.kind.message]
  | .block => return .native (.probe (.blockBody (← freshId) (Value.concat args)))
  | .blockBody _ text =>
    println text
    return .str text
  | .global => return ((← get).globals.lookup? (slotName args)).getD .nil
  | .keep =>
    let value := args[1]?.getD .nil
    modify fun s => { s with kept := s.kept.insert (slotName args) value }
    return .nil
  | .kept => return ((← get).kept[slotName args]?).getD .nil

/-- Calls a native sub. -/
def callNative (native : Native) (args : List Value) : Eval Value :=
  match native with
  | .builtin sub => callBuiltin rounds again sub args
  | .probe probe => callProbe again probe args

end TwoPhase.Interpreter
