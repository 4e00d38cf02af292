import TwoPhase.NameMap
import TwoPhase.Value

/-!
# Lexical environments

Each block and each call has a scope for its variables.  A scope knows the scope around it, which is
always an older one, so a search outwards comes to an end.

The scopes at work form a stack.  Its bottom is a root scope, which is never popped.  A closure may
need the scope it was made in after the block around it has exited, so scopes live on a heap.  A
scope that was never captured goes when it is popped; one that was captured stays, and so do all
scopes older than it, among which are the scopes around it.
-/

namespace TwoPhase

structure Variable where
  value : Value
  /-- How many variables its scope introduced before it. -/
  index : Nat
  deriving Inhabited

/-- The variables of one block or call. -/
structure Scope where
  bindings : NameMap Variable
  parent : Option ScopeId
  /-- The number of variables introduced so far, those included that later ones took the name of. -/
  introduced : Nat
  deriving Inhabited

namespace Scope

/-- A scope without variables. -/
def empty (parent : Option ScopeId) : Scope := ⟨∅, parent, 0⟩

def binding? (s : Scope) (name : String) : Option Variable := s.bindings[name]?

def lookup? (s : Scope) (name : String) : Option Value := (s.binding? name).map (·.value)

/-- Introduces a variable, over the earlier one of its name in this scope if there is one. -/
def define (s : Scope) (name : String) (value : Value) : Scope :=
  { s with
    bindings := s.bindings.insert name ⟨value, s.introduced⟩
    introduced := s.introduced + 1 }

/-- Gives a new value to the variable of a name, if there is one. -/
def assign (s : Scope) (name : String) (value : Value) : Scope :=
  match s.binding? name with
  | some v => { s with bindings := s.bindings.insert name { v with value } }
  | none => s

theorem parent_assign (s : Scope) (name : String) (value : Value) :
    (s.assign name value).parent = s.parent := by
  unfold assign
  split <;> rfl

end Scope

/-- The scope at the bottom of the stack. -/
def ScopeId.root : ScopeId := ⟨0⟩

structure Environment where
  /-- The scopes that may still be referred to, oldest first. -/
  heap : Array Scope
  /-- The scopes at work above the root, innermost first. -/
  inner : List ScopeId
  /-- How many of the oldest scopes stay when they are popped. -/
  kept : Nat
  parent_lt : ∀ (i : Nat) (scope : Scope) (p : ScopeId),
    heap[i]? = some scope → scope.parent = some p → p.index < i
  stack_lt : ∀ id ∈ inner ++ [ScopeId.root], id.index < heap.size
  stack_sorted : (inner ++ [ScopeId.root]).Pairwise fun a b => b.index < a.index
  kept_le : kept ≤ heap.size

namespace Environment

/-- Only the root scope. -/
def initial : Environment where
  heap := #[.empty none]
  inner := []
  kept := 0
  parent_lt := by
    intro i scope p hi hp
    match i with
    | 0 =>
      simp at hi
      subst hi
      simp [Scope.empty] at hp
    | i + 1 => simp at hi
  stack_lt := by simp [ScopeId.root]
  stack_sorted := by simp
  kept_le := by simp

instance : Inhabited Environment := ⟨initial⟩

/-- The scopes at work, innermost first. -/
def stack (e : Environment) : List ScopeId := e.inner ++ [ScopeId.root]

def depth (e : Environment) : Nat := e.stack.length

/-- The innermost scope. -/
def current (e : Environment) : ScopeId := e.inner.headD ScopeId.root

theorem current_mem (e : Environment) : e.current ∈ e.inner ++ [ScopeId.root] := by
  unfold current
  cases e.inner <;> simp

theorem current_lt (e : Environment) : e.current.index < e.heap.size :=
  e.stack_lt e.current e.current_mem

/-- The scope that binds a name, as seen from a scope. -/
def definer? (e : Environment) (name : String) (start : ScopeId) : Option ScopeId :=
  match h : e.heap[start.index]? with
  | none => none
  | some scope =>
    if (scope.lookup? name).isSome then some start
    else match hp : scope.parent with
      | none => none
      | some p =>
        have : p.index < start.index := e.parent_lt start.index scope p h hp
        e.definer? name p
termination_by start.index

/-- The value of a name, as seen from a scope. -/
def lookupFrom? (e : Environment) (name : String) (start : ScopeId) : Option Value :=
  match h : e.heap[start.index]? with
  | none => none
  | some scope =>
    match scope.lookup? name with
    | some value => some value
    | none =>
      match hp : scope.parent with
      | none => none
      | some p =>
        have : p.index < start.index := e.parent_lt start.index scope p h hp
        e.lookupFrom? name p
termination_by start.index

/-- Changes the variables of a scope. -/
def change (e : Environment) (id : ScopeId) (f : Scope → Scope)
    (hf : ∀ scope, (f scope).parent = scope.parent) : Environment where
  heap := e.heap.modify id.index f
  inner := e.inner
  kept := e.kept
  parent_lt := by
    intro i scope p hi hp
    rw [Array.getElem?_modify] at hi
    split at hi
    · cases h : e.heap[i]? with
      | none => simp [h] at hi
      | some old =>
        simp only [h, Option.map_some, Option.some.injEq] at hi
        subst hi
        exact e.parent_lt i old p h (hf old ▸ hp)
    · exact e.parent_lt i scope p hi hp
  stack_lt := by simpa using e.stack_lt
  stack_sorted := e.stack_sorted
  kept_le := by simpa using e.kept_le

/-- Introduces a variable in a given scope. -/
def defineIn (e : Environment) (id : ScopeId) (name : String) (value : Value) : Environment :=
  e.change id (·.define name value) fun _ => rfl

/-- Gives a new value to the variable of a name in a given scope. -/
def assignIn (e : Environment) (id : ScopeId) (name : String) (value : Value) : Environment :=
  e.change id (·.assign name value) fun scope => scope.parent_assign name value

/-- Gives a new value to a name, in the scope that binds it; `none` if no scope does. -/
def assignFrom? (e : Environment) (name : String) (value : Value) (start : ScopeId) :
    Option Environment :=
  (e.definer? name start).map fun owner => e.assignIn owner name value

/-- Enters a new scope.  Its parent has to be on the heap already. -/
def enter (e : Environment) (scope : Scope)
    (hparent : ∀ p, scope.parent = some p → p.index < e.heap.size) : Environment :=
  let id : ScopeId := ⟨e.heap.size⟩
  { heap := e.heap.push scope
    inner := id :: e.inner
    kept := e.kept
    parent_lt := by
      intro i s p hi hp
      rw [Array.getElem?_push] at hi
      split at hi
      · rename_i h
        simp only [Option.some.injEq] at hi
        subst hi
        exact h ▸ hparent p hp
      · exact e.parent_lt i s p hi hp
    stack_lt := by
      intro other hother
      rw [Array.size_push]
      rcases List.mem_cons.1 hother with rfl | hother
      · exact Nat.lt_succ_self _
      · exact Nat.lt_succ_of_lt (e.stack_lt other hother)
    stack_sorted := List.pairwise_cons.2 ⟨e.stack_lt, e.stack_sorted⟩
    kept_le := by
      rw [Array.size_push]
      exact Nat.le_succ_of_le e.kept_le }

/-- A scope without variables.  A parent that is not on the heap stands for none. -/
def emptyScope (e : Environment) (parent : Option ScopeId) : Scope :=
  .empty (parent.filter (·.index < e.heap.size))

theorem emptyScope_parent_lt (e : Environment) (parent : Option ScopeId) (p : ScopeId)
    (hp : (e.emptyScope parent).parent = some p) : p.index < e.heap.size := by
  simp only [emptyScope, Scope.empty, Option.filter_eq_some_iff, decide_eq_true_eq] at hp
  exact hp.2

/-- Enters a block. -/
def push (e : Environment) : Environment :=
  e.enter (.empty (some e.current)) (by
    intro p hp
    cases hp
    exact e.current_lt)

/-- Enters a call or a `begin` block, which sees `parent` or nothing, and never its caller. -/
def pushDetached (e : Environment) (parent : Option ScopeId) : Environment :=
  e.enter (e.emptyScope parent) (e.emptyScope_parent_lt _)

/-- Leaves the innermost scope; the root scope stays.  Scopes that nothing can refer to any more are
dropped. -/
def pop (e : Environment) : Environment :=
  match h : e.inner with
  | [] => e
  | id :: outer =>
    { heap := e.heap.shrink (max e.kept id.index)
      inner := outer
      kept := e.kept
      parent_lt := by
        intro i scope p hi hp
        rw [Array.shrink_eq_take, Array.getElem?_extract] at hi
        split at hi
        · rw [Nat.zero_add] at hi
          exact e.parent_lt i scope p hi hp
        · cases hi
      stack_lt := by
        intro other hother
        have hsorted := e.stack_sorted
        rw [h, List.cons_append, List.pairwise_cons] at hsorted
        have hlt := e.stack_lt other (by rw [h]; exact List.mem_cons_of_mem id hother)
        have hid := hsorted.1 other hother
        rw [Array.size_shrink]
        omega
      stack_sorted := by
        have hsorted := e.stack_sorted
        rw [h, List.cons_append, List.pairwise_cons] at hsorted
        exact hsorted.2
      kept_le := by
        have := e.kept_le
        rw [Array.size_shrink]
        omega }

/-- Captures the innermost scope, which stays from now on. -/
def capture (e : Environment) : ScopeId × Environment :=
  (e.current, { e with
    kept := max e.kept (e.current.index + 1)
    kept_le := Nat.max_le.2 ⟨e.kept_le, e.current_lt⟩ })

/-- Binds a name in the innermost scope. -/
def define (e : Environment) (name : String) (value : Value) : Environment :=
  e.defineIn e.current name value

def lookup? (e : Environment) (name : String) : Option Value := e.lookupFrom? name e.current

def assign? (e : Environment) (name : String) (value : Value) : Option Environment :=
  e.assignFrom? name value e.current

end Environment

end TwoPhase
