import TwoPhase.Tree
import TwoPhase.Deferral.Hook

/-!
# Values

Subs, native subs and dispatch functions are compared by identity: a sub has a number of its own,
given when it was made, and a dispatch function is known by its hook list.  Everything else is
compared by content.
-/

namespace TwoPhase

/-- A lexical scope, which lives as long as something refers to it. -/
structure ScopeId where
  index : Nat
  deriving DecidableEq, Inhabited, Repr

/-- A unit, by the order in which units were constructed. -/
structure UnitId where
  index : Nat
  deriving DecidableEq, Inhabited, Repr

/-- The subs of the language itself. -/
inductive Builtin where
  | print
  | atRuntime
  | afterRuntime
  | lexStuff
  | clear
  | eval
  | require
  | callers
  | die
  | len
  | str
  deriving DecidableEq, Inhabited, Repr

namespace Builtin

/-- All of them, in the order in which an interpreter binds them. -/
def all : List Builtin :=
  [print, atRuntime, afterRuntime, lexStuff, clear, eval, require, callers, die, len, str]

/-- The global that holds the sub at the start. -/
def name : Builtin → String
  | print => "print"
  | atRuntime => "at_runtime"
  | afterRuntime => "after_runtime"
  | lexStuff => "lex_stuff"
  | clear => "at_runtime::clear"
  | eval => "eval"
  | require => "require"
  | callers => "callers"
  | die => "die"
  | len => "len"
  | str => "str"

end Builtin

/-- Native subs that an embedding program adds to watch a session from inside. -/
inductive Probe where
  /-- The construction depth. -/
  | depth
  /-- The pending depths and the depth of the bound dispatch function. -/
  | snapshot
  /-- Calls its first argument and catches its error. -/
  | attempt
  /-- Makes a native sub that prints a text. -/
  | block
  /-- Such a sub, with a number of its own. -/
  | blockBody (id : Nat) (text : String)
  /-- The value of a global, whatever it is. -/
  | global
  /-- Saves a value under a name. -/
  | keep
  /-- Gives a saved value back. -/
  | kept
  deriving DecidableEq, Inhabited, Repr

namespace Probe

/-- The probes that are bound to globals. -/
def all : List Probe := [depth, snapshot, attempt, block, global, keep, kept]

def name : Probe → String
  | depth => "depth"
  | snapshot => "snapshot"
  | attempt => "try"
  | block => "block"
  | blockBody .. => "block body"
  | global => "global"
  | keep => "keep"
  | kept => "kept"

end Probe

/-- A sub that is not written in the language. -/
inductive Native where
  | builtin (sub : Builtin)
  | probe (sub : Probe)
  deriving DecidableEq, Inhabited, Repr

def Native.name : Native → String
  | builtin sub => sub.name
  | probe sub => sub.name

/-- A sub or closure. -/
structure Sub where
  /-- Tells it from every other sub. -/
  id : Nat
  /-- The name of its call frames. -/
  name : String
  function : Function
  /-- The scope that a closure was made in. -/
  captured : Option ScopeId
  /-- The unit that its code is from. -/
  unit : Option UnitId
  deriving Inhabited

inductive Value where
  | nil
  | bool (value : Bool)
  | int (value : Int64)
  | str (value : String)
  | list (items : Array Value)
  | sub (sub : Sub)
  | native (native : Native)
  /-- A dispatch function.  It can be called through its global, but not be loaded from it. -/
  | dispatch (fn : DispatchFn)
  deriving Inhabited

namespace Value

/-- How messages name the kind of a value. -/
def typeName : Value → String
  | nil => "nil"
  | bool _ => "bool"
  | int _ => "int"
  | str _ => "str"
  | list _ => "list"
  | sub _ => "sub"
  | native _ => "native sub"
  | dispatch _ => "dispatch function"

/-- `nil`, `false`, zero and the empty text are false; all else is true. -/
def isTruthy : Value → Bool
  | nil => false
  | bool value => value
  | int value => value != 0
  | str value => value != ""
  | _ => true

/-- Whether a value can be put off; a dispatch function cannot. -/
def isCallable : Value → Bool
  | sub _ => true
  | native _ => true
  | _ => false

def asString? : Value → Option String
  | str value => some value
  | _ => none

mutual

/-- Whether two values are equal. -/
def same : Value → Value → Bool
  | nil, nil => true
  | bool a, bool b => a == b
  | int a, int b => a == b
  | str a, str b => a == b
  | list ⟨as⟩, list ⟨bs⟩ => sameAll as bs
  | sub a, sub b => a.id == b.id
  | native a, native b => a == b
  | dispatch a, dispatch b => a == b
  | _, _ => false

def sameAll : List Value → List Value → Bool
  | [], [] => true
  | a :: as, b :: bs => a.same b && sameAll as bs
  | _, _ => false

end

/-! ## Display -/

mutual

/-- Writes a value after a text, so that what is written is never copied again. -/
def displayOnto (text : String) : Value → String
  | nil => text ++ "nil"
  | bool value => text ++ if value then "true" else "false"
  | int value => text ++ toString value.toInt
  | str value => text ++ value
  | list ⟨items⟩ => displayItemsOnto (text ++ "[") items ++ "]"
  | sub _ => text ++ "<sub>"
  | native _ => text ++ "<native sub>"
  | dispatch fn => text ++ s!"<dispatch depth {fn.depth}>"

/-- Writes values after a text, with commas between them. -/
def displayItemsOnto (text : String) : List Value → String
  | [] => text
  | [item] => item.displayOnto text
  | item :: items => displayItemsOnto (item.displayOnto text ++ ", ") items

end

/-- The text that `print` shows for a value. -/
def display (value : Value) : String := value.displayOnto ""

/-- The texts of several values, one after the other. -/
def concat (values : List Value) : String := values.foldl displayOnto ""

mutual

theorem displayOnto_append (front text : String) : ∀ value : Value,
    value.displayOnto (front ++ text) = front ++ value.displayOnto text
  | nil | bool _ | int _ | str _ | sub _ | native _ | dispatch _ => by
    simp only [displayOnto, String.append_assoc]
  | list ⟨items⟩ => by
    simp only [displayOnto, String.append_assoc, displayItemsOnto_append front (text ++ "[") items]

theorem displayItemsOnto_append (front text : String) : ∀ items : List Value,
    displayItemsOnto (front ++ text) items = front ++ displayItemsOnto text items
  | [] => rfl
  | [item] => by simp only [displayItemsOnto, displayOnto_append front text item]
  | item :: next :: items => by
    simp only [displayItemsOnto, displayOnto_append front text item, String.append_assoc,
      displayItemsOnto_append front (item.displayOnto text ++ ", ") (next :: items)]

end

/-- What is written is the text that was there, then the display form. -/
theorem displayOnto_eq (text : String) (value : Value) :
    value.displayOnto text = text ++ value.display := by
  simpa [display] using displayOnto_append text "" value

theorem concat_eq_join (values : List Value) :
    concat values = String.join (values.map display) := by
  have h (text : String) :
      values.foldl displayOnto text = text ++ String.join (values.map display) := by
    induction values generalizing text with
    | nil => simp
    | cons value values ih => simp [ih, displayOnto_eq, String.append_assoc]
  simpa [concat] using h ""

end Value

/-- A callable put off to run time. -/
structure DeferredBlock where
  callable : Value
  /-- The name of the frame it runs in. -/
  label : String
  deriving Inhabited

end TwoPhase
