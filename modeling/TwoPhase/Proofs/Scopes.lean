import Mathlib.Logic.Relation
import TwoPhase.Proofs.Likeness.Environment

/-!
# Writes to a tree of scopes

Every scope has at most one scope around it, so the scopes form a tree.  A search for a name goes
outwards and stops at the first scope that has a variable of the name; `Sees` is the way up to
there.  Handles to scopes outlive the stack, and may lie anywhere in the tree.

A definition and an assignment both set one variable (`Sets`).  Which lookups that changes is said
once for the two (`Sets.rewrites`): those of the name from the scopes that see the variable.  All
other operations change no lookup at all, from any scope that is still at hand.
-/

namespace TwoPhase

/-! ## The variables of a scope -/

theorem Scope.lookup?_define (s : Scope) (name other : String) (value : Value) :
    (s.define name value).lookup? other = if other = name then some value else s.lookup? other := by
  simp only [lookup?, binding?, define, Std.TreeMap.getElem?_insert,
    Std.LawfulEqOrd.compare_eq_iff_eq, @eq_comm _ name]
  split <;> rfl

theorem Scope.lookup?_assign {s : Scope} {name : String} (h : (s.lookup? name).isSome)
    (other : String) (value : Value) :
    (s.assign name value).lookup? other = if other = name then some value else s.lookup? other := by
  rw [lookup?, Option.isSome_map] at h
  obtain ⟨v, hv⟩ := Option.isSome_iff_exists.1 h
  have hassign : s.assign name value
      = { s with bindings := s.bindings.insert name { v with value } } := by
    rw [assign, hv]
  simp only [hassign, lookup?, binding?, Std.TreeMap.getElem?_insert,
    Std.LawfulEqOrd.compare_eq_iff_eq, @eq_comm _ name]
  split <;> rfl

namespace Environment

variable {e f : Environment} {name other : String} {id start owner p : ScopeId} {value : Value}

/-- The scope around a scope. -/
def parent? (e : Environment) (id : ScopeId) : Option ScopeId :=
  (e.heap[id.index]?).bind (·.parent)

/-- The value of a scope's own variable. -/
def own? (e : Environment) (id : ScopeId) (name : String) : Option Value :=
  (e.heap[id.index]?).bind (·.lookup? name)

theorem parent?_lt (h : e.parent? id = some p) : p.index < id.index := by
  obtain ⟨scope, hscope, hparent⟩ := Option.bind_eq_some_iff.1 h
  exact e.parent_lt id.index scope p hscope hparent

/-- Induction from a scope to the one around it. -/
theorem outwards_induction (e : Environment) {P : ScopeId → Prop}
    (step : ∀ id, (∀ p, e.parent? id = some p → P p) → P id) (id : ScopeId) : P id := by
  induction id using e.scopes_induction with
  | step id ih =>
      refine step id fun p hp => ?_
      obtain ⟨scope, hscope, hparent⟩ := Option.bind_eq_some_iff.1 hp
      exact ih scope p hscope hparent

/-- No scope is around itself. -/
theorem parent?_acyclic (e : Environment) (id : ScopeId) :
    ¬Relation.TransGen (fun inner outer => e.parent? inner = some outer) id id := by
  have hlt : ∀ {inner outer : ScopeId},
      Relation.TransGen (fun inner outer => e.parent? inner = some outer) inner outer →
        outer.index < inner.index := by
    intro inner outer h
    induction h with
    | single hparent => exact parent?_lt hparent
    | tail _ hparent ih => exact Nat.lt_trans (parent?_lt hparent) ih
  exact fun h => Nat.lt_irrefl _ (hlt h)

/-! ## Searching outwards -/

theorem definer?_step (e : Environment) (name : String) (start : ScopeId) :
    e.definer? name start =
      if (e.own? start name).isSome then some start
      else (e.parent? start).bind (e.definer? name) := by
  rw [e.definer?_eq, own?, parent?]
  cases e.heap[start.index]? with
  | none => rfl
  | some scope =>
      simp only [Option.bind_some]
      split
      · rfl
      · cases scope.parent <;> rfl

theorem lookupFrom?_step (e : Environment) (name : String) (start : ScopeId) :
    e.lookupFrom? name start =
      (e.own? start name).or ((e.parent? start).bind (e.lookupFrom? name)) := by
  rw [e.lookupFrom?_eq, own?, parent?]
  cases e.heap[start.index]? with
  | none => rfl
  | some scope =>
      simp only [Option.bind_some]
      cases scope.lookup? name with
      | some value => rfl
      | none => cases scope.parent <;> rfl

/-- The scopes that a search for a name comes by: it goes on where there is no variable of the
name. -/
inductive Sees (e : Environment) (name : String) : ScopeId → ScopeId → Prop where
  | here (id : ScopeId) : Sees e name id id
  | outwards {start p id : ScopeId} (hfree : e.own? start name = none)
      (hparent : e.parent? start = some p) (h : Sees e name p id) : Sees e name start id

/-- The scope that a search for a name ends in, since it has a variable of the name. -/
structure Resolves (e : Environment) (name : String) (start owner : ScopeId) : Prop where
  sees : e.Sees name start owner
  bound : (e.own? owner name).isSome

/-- Past a scope without the name, a search sees what it sees from the scope around it. -/
theorem sees_iff_of_free (hfree : e.own? start name = none) (hne : start ≠ id) :
    e.Sees name start id ↔ ∃ p, e.parent? start = some p ∧ e.Sees name p id := by
  refine ⟨fun h => ?_, fun ⟨p, hparent, h⟩ => .outwards hfree hparent h⟩
  cases h with
  | here => exact absurd rfl hne
  | outwards _ hparent h => exact ⟨_, hparent, h⟩

/-- From a scope with the name, a search sees no other scope. -/
theorem Sees.eq_of_bound (h : e.Sees name start id) (hbound : (e.own? start name).isSome) :
    start = id := by
  cases h with
  | here => rfl
  | outwards hfree => simp [hfree] at hbound

theorem definer?_eq_some_iff :
    e.definer? name start = some owner ↔ e.Resolves name start owner := by
  induction start using e.outwards_induction with
  | step start ih =>
      rw [definer?_step]
      split
      · rename_i hbound
        rw [Option.some_inj]
        refine ⟨?_, fun h => h.sees.eq_of_bound hbound⟩
        rintro rfl
        exact ⟨.here start, hbound⟩
      · rename_i hfree
        rw [Bool.not_eq_true, Option.isSome_eq_false_iff, Option.isNone_iff_eq_none] at hfree
        rw [Option.bind_eq_some_iff]
        constructor
        · rintro ⟨p, hparent, howner⟩
          obtain ⟨hsees, hbound⟩ := (ih p hparent).1 howner
          exact ⟨.outwards hfree hparent hsees, hbound⟩
        · rintro ⟨hsees, hbound⟩
          have hne : start ≠ owner := by
            rintro rfl
            simp [hfree] at hbound
          obtain ⟨p, hparent, hsees⟩ := (sees_iff_of_free hfree hne).1 hsees
          exact ⟨p, hparent, (ih p hparent).2 ⟨hsees, hbound⟩⟩

theorem isSome_definer? (e : Environment) (name : String) (start : ScopeId) :
    (e.definer? name start).isSome = (e.lookupFrom? name start).isSome := by
  induction start using e.outwards_induction with
  | step start ih =>
      rw [definer?_step, lookupFrom?_step]
      cases e.own? start name with
      | some value => rfl
      | none =>
          cases hparent : e.parent? start with
          | none => rfl
          | some p => exact ih p hparent

/-! ## Setting a variable -/

/-- `f` is `e` with one variable set: that of a name in a scope. -/
structure Sets (e f : Environment) (id : ScopeId) (name : String) (value : Value) : Prop where
  parent : ∀ start, f.parent? start = e.parent? start
  own : ∀ start other,
    f.own? start other = if start = id ∧ other = name then some value else e.own? start other

/-- From `e` to `f`, the lookups of a name from some scopes change to a value, and no others
change. -/
structure Rewrites (e f : Environment) (name : String) (value : Value) (seers : ScopeId → Prop) :
    Prop where
  seen : ∀ start, seers start → f.lookupFrom? name start = some value
  kept : ∀ start other, ¬(other = name ∧ seers start) →
    f.lookupFrom? other start = e.lookupFrom? other start

/-- The lookups that a variable changes are those that come by its scope. -/
theorem Sets.rewrites (h : e.Sets f id name value) :
    e.Rewrites f name value (e.Sees name · id) where
  seen start hsees := by
    induction hsees with
    | here id => rw [lookupFrom?_step, h.own, if_pos ⟨rfl, rfl⟩, Option.some_or]
    | @outwards start p id hfree hparent _ ih =>
        by_cases heq : start = id
        · rw [lookupFrom?_step, h.own, if_pos ⟨heq, rfl⟩, Option.some_or]
        · rw [lookupFrom?_step, h.own, if_neg (fun hid => heq hid.1), hfree, Option.none_or,
            h.parent, hparent]
          exact ih h
  kept start other hother := by
    induction start using e.outwards_induction with
    | step start ih =>
        have hout : ¬(start = id ∧ other = name) := by
          rintro ⟨rfl, rfl⟩
          exact hother ⟨rfl, .here start⟩
        rw [lookupFrom?_step, lookupFrom?_step, h.own, if_neg hout, h.parent]
        cases hown : e.own? start other with
        | some value => rfl
        | none =>
            -- a scope further out is seen from here as well
            cases hparent : e.parent? start with
            | none => rfl
            | some p =>
                exact ih p hparent fun ⟨hname, hsees⟩ =>
                  hother ⟨hname, .outwards (hname ▸ hown) hparent hsees⟩

theorem parent?_change (e : Environment) (id : ScopeId) (k : Scope → Scope) (hk)
    (start : ScopeId) : (e.change id k hk).parent? start = e.parent? start := by
  simp only [parent?, change, Array.getElem?_modify]
  split
  · cases e.heap[start.index]? with
    | none => rfl
    | some scope => exact hk scope
  · rfl

theorem own?_change (e : Environment) (id : ScopeId) (k : Scope → Scope) (hk) (start : ScopeId)
    (other : String) : (e.change id k hk).own? start other =
      if start = id then (e.heap[id.index]?).bind fun scope => (k scope).lookup? other
      else e.own? start other := by
  by_cases heq : start = id
  · subst heq
    rw [if_pos rfl, own?, change, Array.getElem?_modify, if_pos rfl, Option.bind_map]
    rfl
  · have hne : id.index ≠ start.index := fun h => heq (by cases id; cases start; simp_all)
    rw [if_neg heq, own?, change, Array.getElem?_modify, if_neg hne, own?]

theorem sets_change {k : Scope → Scope} {hk} {scope : Scope}
    (hscope : e.heap[id.index]? = some scope)
    (hset : ∀ other, (k scope).lookup? other
      = if other = name then some value else scope.lookup? other) :
    e.Sets (e.change id k hk) id name value where
  parent := e.parent?_change id k hk
  own start other := by
    rw [own?_change]
    by_cases heq : start = id
    · subst heq
      simp only [if_pos, true_and, hscope, Option.bind_some, hset, own?]
    · rw [if_neg heq, if_neg fun h => heq h.1]

theorem sets_defineIn (hid : id.index < e.heap.size) (name : String) (value : Value) :
    e.Sets (e.defineIn id name value) id name value :=
  sets_change (Array.getElem?_eq_getElem hid) fun other => Scope.lookup?_define _ name other value

theorem sets_assignIn (hbound : (e.own? id name).isSome) (value : Value) :
    e.Sets (e.assignIn id name value) id name value := by
  obtain ⟨old, hold⟩ := Option.isSome_iff_exists.1 hbound
  obtain ⟨scope, hscope, hlookup⟩ := Option.bind_eq_some_iff.1 hold
  refine sets_change hscope fun other => Scope.lookup?_assign ?_ other value
  rw [hlookup]
  rfl

/-- An assignment changes the lookups that resolve to the same scope. -/
theorem rewrites_assignIn (howner : e.Resolves name start owner) (value : Value) :
    e.Rewrites (e.assignIn owner name value) name value (e.Resolves name · owner) := by
  have hrewrites := (sets_assignIn howner.bound value).rewrites
  exact ⟨fun start h => hrewrites.seen start h.sees, fun start other h =>
    hrewrites.kept start other fun hsees => h ⟨hsees.1, hsees.2, howner.bound⟩⟩

/-! ## Entering and leaving -/

/-- A lookup reads the scope where it starts and older ones. -/
theorem lookupFrom?_congr (h : ∀ i ≤ start.index, f.heap[i]? = e.heap[i]?) (name : String) :
    f.lookupFrom? name start = e.lookupFrom? name start := by
  induction start using e.outwards_induction with
  | step start ih =>
      have hheap := h start.index (Nat.le_refl _)
      have hparent? : f.parent? start = e.parent? start := by rw [parent?, parent?, hheap]
      rw [lookupFrom?_step, lookupFrom?_step, hparent?, own?, own?, hheap]
      cases hparent : e.parent? start with
      | none => rfl
      | some p =>
          have hlt := parent?_lt hparent
          rw [Option.bind_some, Option.bind_some, ih p hparent fun i hi => h i (by omega)]

theorem lookupFrom?_enter (scope : Scope) (hparent) (hstart : start.index < e.heap.size)
    (name : String) : (e.enter scope hparent).lookupFrom? name start = e.lookupFrom? name start :=
  lookupFrom?_congr (fun i hi => by
    rw [enter, Array.getElem?_push, if_neg (by omega)]) name

/-- From a scope that was just entered, one looks past it. -/
theorem lookup?_enter {scope : Scope} {parent : Option ScopeId} (hscope : scope = .empty parent)
    (hparent) (name : String) :
    (e.enter scope hparent).lookup? name = parent.bind (e.lookupFrom? name) := by
  subst hscope
  have hentered : (e.enter (.empty parent) hparent).heap[e.heap.size]? = some (.empty parent) := by
    simp [enter]
  have hnone : (Scope.empty parent).lookup? name = none := by
    simp [Scope.lookup?, Scope.binding?, Scope.empty]
  change (e.enter (.empty parent) hparent).lookupFrom? name ⟨e.heap.size⟩ = _
  rw [lookupFrom?_step, own?, parent?, hentered, Option.bind_some, Option.bind_some, hnone,
    Option.none_or]
  cases parent with
  | none => rfl
  | some p => exact lookupFrom?_enter _ hparent (hparent p rfl) name

theorem lookupFrom?_push (hstart : start.index < e.heap.size) (name : String) :
    e.push.lookupFrom? name start = e.lookupFrom? name start := by
  rw [push, lookupFrom?_enter _ _ hstart]

theorem lookupFrom?_pushDetached (parent : Option ScopeId) (hstart : start.index < e.heap.size)
    (name : String) :
    (e.pushDetached parent).lookupFrom? name start = e.lookupFrom? name start := by
  rw [pushDetached, lookupFrom?_enter _ _ hstart]

theorem lookup?_push (e : Environment) (name : String) : e.push.lookup? name = e.lookup? name := by
  rw [push, lookup?_enter rfl]
  rfl

/-- A call sees its parent if that is on the heap. -/
theorem lookup?_pushDetached {parent : Option ScopeId}
    (hparent : ∀ p ∈ parent, p.index < e.heap.size) (name : String) :
    (e.pushDetached parent).lookup? name = parent.bind (e.lookupFrom? name) := by
  have hscope : e.emptyScope parent = .empty parent := by
    cases parent with
    | none => rfl
    | some p => simp only [emptyScope, Option.filter_some, hparent p rfl, decide_true, if_true]
  rw [pushDetached, lookup?_enter hscope]

/-- A scope that is older than the one left, or that was captured, stays as it is. -/
theorem lookupFrom?_pop (hstart : start ∈ e.pop.stack ∨ start.index < e.kept) (name : String) :
    e.pop.lookupFrom? name start = e.lookupFrom? name start := by
  refine lookupFrom?_congr (fun i hi => ?_) name
  rw [pop_heap]
  cases hinner : e.inner with
  | nil => rfl
  | cons id outer =>
      have hbound : start.index < max e.kept id.index := by
        rcases hstart with hmem | hkept
        · have hsorted := e.stack_sorted
          rw [hinner, List.cons_append, List.pairwise_cons] at hsorted
          rw [stack, pop_inner, hinner, List.tail_cons] at hmem
          have hlt := hsorted.1 start hmem
          omega
        · omega
      simp only [Array.shrink_eq_take, Array.take_eq_extract, Array.getElem?_extract]
      rw [Nat.zero_add]
      split
      · rfl
      · rw [Array.getElem?_eq_none (by omega)]

theorem pop_of_depth (h : e.depth = 1) : e.pop = e := by
  have hinner : e.inner = [] := by simpa [depth, stack] using h
  unfold pop
  split
  · rfl
  · simp_all

theorem stack_pop (h : e.depth ≠ 1) : e.pop.stack = e.stack.tail := by
  have hinner : e.inner ≠ [] := by simpa [depth, stack] using h
  rw [stack, stack, pop_inner, List.tail_append_of_ne_nil hinner]

/-! ## Commands -/

/-- An environment, and the scopes that were captured from it, in order. -/
structure Held where
  env : Environment
  scopes : List ScopeId

/-- Where a name is introduced or looked for: in the innermost scope, or in a captured one. -/
inductive Place where
  | current
  | captured (slot : Nat)

inductive Command where
  | push
  | pushDetached (slot : Option Nat)
  | pop
  | capture
  | define (place : Place) (name : String) (value : Value)
  | assign (place : Place) (name : String) (value : Value)
  | lookup (place : Place) (name : String)

/-- Whether a command gives a variable a value. -/
def Command.writes : Command → Bool
  | .define .. => true
  | .assign .. => true
  | _ => false

inductive Answer where
  | done
  | assigned (success : Bool)
  | found (value : Option Value)
  | noScope

namespace Held

/-- Only the root scope, and no other captured. -/
def initial : Held := ⟨.initial, []⟩

/-- The scopes that a command can be about: those at work, and those captured. -/
def atHand (h : Held) : List ScopeId := h.env.stack ++ h.scopes

def scopeAt? (h : Held) : Place → Option ScopeId
  | .current => some h.env.current
  | .captured slot => h.scopes[slot]?

def perform (h : Held) : Command → Answer × Held
  | .push => (.done, { h with env := h.env.push })
  | .pushDetached slot => (.done, { h with env := h.env.pushDetached (slot.bind (h.scopes[·]?)) })
  | .pop => (.done, { h with env := h.env.pop })
  | .capture => (.done, ⟨h.env.capture.2, h.scopes ++ [h.env.capture.1]⟩)
  | .define place name value =>
    match h.scopeAt? place with
    | none => (.noScope, h)
    | some id => (.done, { h with env := h.env.defineIn id name value })
  | .assign place name value =>
    match h.scopeAt? place with
    | none => (.noScope, h)
    | some id =>
      match h.env.assignFrom? name value id with
      | none => (.assigned false, h)
      | some env => (.assigned true, { h with env })
  | .lookup place name =>
    match h.scopeAt? place with
    | none => (.noScope, h)
    | some id => (.found (h.env.lookupFrom? name id), h)

/-- What there is after commands performed in turn. -/
def performAll (h : Held) : List Command → Held
  | [] => h
  | command :: commands => (h.perform command).2.performAll commands

/-- The captured scopes are among those that stay when they are popped. -/
def Kept (h : Held) : Prop := ∀ id ∈ h.scopes, id.index < h.env.kept

variable {h : Held} {place : Place}

theorem Kept.perform (hkept : h.Kept) (command : Command) : (h.perform command).2.Kept := by
  cases command with
  | push | pushDetached => exact hkept
  | pop => exact fun id hid => h.env.pop_kept ▸ hkept id hid
  | capture =>
      intro id hid
      rcases List.mem_append.1 hid with hold | hnew
      · exact Nat.lt_of_lt_of_le (hkept id hold) (Nat.le_max_left _ _)
      · rw [List.mem_singleton.1 hnew]
        exact Nat.lt_of_lt_of_le (Nat.lt_succ_self _) (Nat.le_max_right _ _)
  | define place name value =>
      simp only [Held.perform]
      split <;> exact hkept
  | assign place name value =>
      simp only [Held.perform, assignFrom?]
      split
      · exact hkept
      · cases h.env.definer? name _ <;> exact hkept
  | lookup place name =>
      simp only [Held.perform]
      split <;> exact hkept

theorem Kept.performAll (hkept : h.Kept) (commands : List Command) :
    (h.performAll commands).Kept := by
  induction commands generalizing h with
  | nil => exact hkept
  | cons command commands ih => exact ih (hkept.perform command)

/-- A command finds its scope on the heap. -/
theorem Kept.scopeAt?_lt (hkept : h.Kept) (hid : h.scopeAt? place = some id) :
    id.index < h.env.heap.size := by
  cases place with
  | current =>
      cases hid
      exact h.env.current_lt
  | captured slot =>
      exact Nat.lt_of_lt_of_le (hkept id (List.mem_of_getElem? hid)) h.env.kept_le

theorem Kept.atHand_lt (hkept : h.Kept) (hid : id ∈ h.atHand) : id.index < h.env.heap.size := by
  rcases List.mem_append.1 hid with hstack | hscopes
  · exact h.env.stack_lt id hstack
  · exact Nat.lt_of_lt_of_le (hkept id hscopes) h.env.kept_le

/-- An assignment that finds no variable is refused and changes nothing; any other one sets the
variable that is found. -/
theorem perform_assign (hstart : h.scopeAt? place = some start) (name : String) (value : Value) :
    (h.env.lookupFrom? name start = none ∧
      h.perform (.assign place name value) = (.assigned false, h)) ∨
    ∃ owner, h.env.Resolves name start owner ∧ (h.env.lookupFrom? name start).isSome ∧
      h.perform (.assign place name value)
        = (.assigned true, { h with env := h.env.assignIn owner name value }) := by
  have hfound := h.env.isSome_definer? name start
  cases howner : h.env.definer? name start with
  | none =>
      rw [howner, Option.isSome_none, eq_comm, Option.isSome_eq_false_iff,
        Option.isNone_iff_eq_none] at hfound
      exact .inl ⟨hfound, by simp [perform, hstart, assignFrom?, howner]⟩
  | some owner =>
      rw [howner, Option.isSome_some] at hfound
      exact .inr ⟨owner, definer?_eq_some_iff.1 howner, hfound.symm,
        by simp [perform, hstart, assignFrom?, howner]⟩

/-- A command that gives no variable a value changes no lookup from a scope that stays at hand. -/
theorem Kept.lookupFrom?_perform (hkept : h.Kept) {command : Command}
    (hreads : command.writes = false) (hid : id ∈ h.atHand)
    (hstays : id ∈ (h.perform command).2.atHand) (name : String) :
    (h.perform command).2.env.lookupFrom? name id = h.env.lookupFrom? name id := by
  cases command with
  | push => exact lookupFrom?_push (hkept.atHand_lt hid) name
  | pushDetached slot => exact lookupFrom?_pushDetached _ (hkept.atHand_lt hid) name
  | pop => exact lookupFrom?_pop ((List.mem_append.1 hstays).imp_right (hkept id)) name
  | capture => exact lookupFrom?_congr (e := h.env) (f := h.env.capture.2) (fun _ _ => rfl) name
  | define place other value | assign place other value => cases hreads
  | lookup place other =>
      simp only [Held.perform]
      split <;> rfl

/-- A captured scope is on the heap. -/
theorem Kept.slot_lt (hkept : h.Kept) (slot : Option Nat) :
    ∀ p ∈ slot.bind (h.scopes[·]?), p.index < h.env.heap.size := by
  intro p hp
  obtain ⟨n, -, hn⟩ := Option.bind_eq_some_iff.1 hp
  have hplace : h.scopeAt? (.captured n) = some p := hn
  exact hkept.scopeAt?_lt hplace

end Held

/-! ## The main statement -/

/-- Whatever was done to an environment and to the scopes captured from it: an assignment succeeds
just where a lookup would, changes the lookups that resolve to the same scope and no others, and
changes nothing if it fails; a definition changes the lookups that come by its scope and no others.
Commands that are neither change no lookup from a scope that stays at hand, and a scope that is
entered shows what its parent shows.  The root scope is never popped, and no scope is around
itself. -/
theorem writes_set_one_variable (commands : List Command) :
    let h := Held.initial.performAll commands
    (∀ place start name value, h.scopeAt? place = some start →
      let after := h.perform (.assign place name value)
      (after.1 = .assigned true ↔ (h.env.lookupFrom? name start).isSome) ∧
      (after.1 ≠ .assigned true → after.2 = h) ∧
      (after.1 = .assigned true → ∃ owner, h.env.Resolves name start owner ∧
        h.env.Rewrites after.2.env name value (h.env.Resolves name · owner))) ∧
    (∀ place id name value, h.scopeAt? place = some id →
      h.env.Rewrites (h.perform (.define place name value)).2.env name value
        (h.env.Sees name · id)) ∧
    (∀ command, command.writes = false →
      ∀ id ∈ h.atHand, id ∈ (h.perform command).2.atHand → ∀ name,
        (h.perform command).2.env.lookupFrom? name id = h.env.lookupFrom? name id) ∧
    (∀ name, (h.perform .push).2.env.lookup? name = h.env.lookup? name) ∧
    (∀ slot name, (h.perform (.pushDetached slot)).2.env.lookup? name
      = (slot.bind (h.scopes[·]?)).bind (h.env.lookupFrom? name)) ∧
    (h.perform .pop).2.env.stack = (if h.env.depth = 1 then h.env.stack else h.env.stack.tail) ∧
    (h.perform .pop).2.env.stack.getLast? = some .root ∧
    (h.env.depth = 1 → (h.perform .pop).2 = h) ∧
    ∀ id, ¬Relation.TransGen (fun inner outer => h.env.parent? inner = some outer) id id := by
  intro h
  have hkept : h.Kept := Held.Kept.performAll (by simp [Held.Kept, Held.initial]) commands
  refine ⟨fun place start name value hstart => ?_, fun place id name value hid => ?_,
    fun command hreads id hid hstays name => hkept.lookupFrom?_perform hreads hid hstays name,
    h.env.lookup?_push, fun slot => lookup?_pushDetached (hkept.slot_lt slot), ?_, ?_, ?_,
    h.env.parent?_acyclic⟩
  · rcases Held.perform_assign hstart name value with
      ⟨hnone, hrun⟩ | ⟨owner, howner, hsome, hrun⟩
    · simp [hrun, hnone]
    · simpa [hrun, hsome] using ⟨owner, howner, rewrites_assignIn howner value⟩
  · simp only [Held.perform, hid]
    exact (sets_defineIn (hkept.scopeAt?_lt hid) name value).rewrites
  · simp only [Held.perform]
    split
    · rename_i hdepth
      rw [pop_of_depth hdepth]
    · rename_i hdepth
      exact stack_pop hdepth
  · exact List.getLast?_concat
  · intro hdepth
    simp only [Held.perform, pop_of_depth hdepth]

end Environment

end TwoPhase
