import TwoPhase.Environment
import TwoPhase.Proofs.Likeness.Value

/-!
# Environments

Environments are alike if they have the same scopes at work and on the heap, filled alike.

Code may enter scopes and leave them again, give values to names, and capture scopes.  When it has
left all that it entered, every scope that was there before is still there, with the same parent and
no name missing (`Environment.Kept`).
-/

namespace TwoPhase

variable {K : Comparison}

namespace Environment

variable (e : Environment) (name : String) (start : ScopeId)

/-! ## What the operations do -/

theorem definer?_eq : e.definer? name start =
    match e.heap[start.index]? with
    | none => none
    | some scope =>
      if (scope.lookup? name).isSome then some start
      else match scope.parent with
        | none => none
        | some p => e.definer? name p := by
  rw [definer?]
  split
  · simp_all
  · rename_i scope hscope
    simp only [hscope]
    split
    · rfl
    · split <;> simp_all

theorem lookupFrom?_eq : e.lookupFrom? name start =
    match e.heap[start.index]? with
    | none => none
    | some scope =>
      match scope.lookup? name with
      | some value => some value
      | none =>
        match scope.parent with
        | none => none
        | some p => e.lookupFrom? name p := by
  rw [lookupFrom?]
  split
  · simp_all
  · rename_i scope hscope
    simp only [hscope]
    split
    · simp_all
    · split <;> simp_all

/-- Induction from a scope to the one around it. -/
theorem scopes_induction {P : ScopeId → Prop}
    (step : ∀ id, (∀ scope p, e.heap[id.index]? = some scope → scope.parent = some p → P p) → P id)
    (id : ScopeId) : P id := by
  induction hindex : id.index using Nat.strongRecOn generalizing id with
  | ind n ih =>
      refine step id fun scope p hscope hparent => ?_
      exact ih p.index (hindex ▸ e.parent_lt _ scope p hscope hparent) p rfl

theorem pop_inner : e.pop.inner = e.inner.tail := by
  unfold pop
  split <;> simp_all

theorem pop_kept : e.pop.kept = e.kept := by
  unfold pop
  split <;> rfl

theorem pop_heap : e.pop.heap =
    match e.inner with
    | [] => e.heap
    | id :: _ => e.heap.shrink (max e.kept id.index) := by
  unfold pop
  split <;> simp_all

end Environment

/-! ## Likeness -/

/-- The same variable, up to spans in its value. -/
structure Variable.Like (K : Comparison) (v w : Variable) : Prop where
  value : v.value.Like K w.value
  index : v.index = w.index

/-- The same scope, up to spans in values. -/
structure Scope.Like (K : Comparison) (s t : Scope) : Prop where
  bindings : NameMap.Like (Variable.Like K) s.bindings t.bindings
  parent : s.parent = t.parent
  introduced : s.introduced = t.introduced

/-- The same scopes at work and on the heap, up to spans in values. -/
structure Environment.Like (K : Comparison) (e f : Environment) : Prop where
  heap : e.heap.toList.Forall₂ (Scope.Like K) f.heap.toList
  inner : e.inner = f.inner
  kept : e.kept = f.kept

theorem Variable.Like.refl (v : Variable) : v.Like K v := ⟨.same _, rfl⟩

theorem Variable.Like.eq (hexact : K.exact) {v w : Variable} (h : v.Like K w) : v = w := by
  obtain ⟨value, index⟩ := v
  obtain ⟨value', index'⟩ := w
  obtain ⟨hvalue, rfl⟩ := h
  rw [show value = value' from hvalue.eq hexact]

theorem Scope.Like.refl (s : Scope) : s.Like K s := ⟨.same _, rfl, rfl⟩

theorem Scope.Like.eq {s t : Scope} (hexact : K.exact) (h : s.Like K t) : s = t := by
  obtain ⟨bindings, parent, introduced⟩ := s
  obtain ⟨bindings', parent', introduced'⟩ := t
  obtain ⟨hbindings, rfl, rfl⟩ := h
  rw [show bindings = bindings' from hbindings.eq (Variable.Like.eq hexact)]

theorem Scope.Like.binding? {s t : Scope} (h : s.Like K t) (name : String) :
    Option.Rel (Variable.Like K) (s.binding? name) (t.binding? name) :=
  h.bindings.getElem? .refl name

theorem Scope.Like.lookup? {s t : Scope} (h : s.Like K t) (name : String) :
    Option.Rel (Value.Like K) (s.lookup? name) (t.lookup? name) := by
  rw [Scope.lookup?, Scope.lookup?]
  rcases rel_cases (h.binding? name) with ⟨hs, ht⟩ | ⟨v, w, hs, ht, hvariable⟩
  · rw [hs, ht]
    exact .none
  · rw [hs, ht]
    exact .some hvariable.value

theorem Scope.Like.define {s t : Scope} (h : s.Like K t) (name : String) {v w : Value}
    (hvalue : v.Like K w) : (s.define name v).Like K (t.define name w) :=
  ⟨.insert name h.bindings ⟨hvalue, h.introduced⟩, h.parent, congrArg (· + 1) h.introduced⟩

theorem Scope.Like.assign {s t : Scope} (h : s.Like K t) (name : String) {v w : Value}
    (hvalue : v.Like K w) : (s.assign name v).Like K (t.assign name w) := by
  rw [Scope.assign, Scope.assign]
  rcases rel_cases (h.binding? name) with ⟨hs, ht⟩ | ⟨_, _, hs, ht, hvariable⟩
  · rw [hs, ht]
    exact h
  · rw [hs, ht]
    exact ⟨.insert name h.bindings ⟨hvalue, hvariable.index⟩, h.parent, h.introduced⟩

namespace Environment.Like

variable {e f : Environment}

theorem refl (e : Environment) : e.Like K e := ⟨forall₂_refl_of .refl _, rfl, rfl⟩

theorem eq (hexact : K.exact) (h : e.Like K f) : e = f := by
  obtain ⟨heap, inner, kept, _⟩ := e
  obtain ⟨heap', inner', kept', _⟩ := f
  obtain ⟨hheap, rfl, rfl⟩ := h
  obtain rfl : heap = heap' := Array.toList_inj.1 (eq_of_forall₂ (Scope.Like.eq hexact) hheap)
  rfl

theorem size (h : e.Like K f) : e.heap.size = f.heap.size := h.heap.length_eq

theorem current (h : e.Like K f) : e.current = f.current := by
  rw [Environment.current, Environment.current, h.inner]

theorem scope (h : e.Like K f) (i : Nat) : Option.Rel (Scope.Like K) e.heap[i]? f.heap[i]? := by
  rw [← Array.getElem?_toList, ← Array.getElem?_toList]
  exact forall₂_getElem? h.heap i

/-! ### Reading -/

theorem definer? (h : e.Like K f) (name : String) (start : ScopeId) :
    e.definer? name start = f.definer? name start := by
  induction start using e.scopes_induction with
  | step start ih =>
      rw [e.definer?_eq, f.definer?_eq]
      rcases rel_cases (h.scope start.index) with ⟨he, hf⟩ | ⟨scope, scope', he, hf, hscope⟩
      · rw [he, hf]
      · have hbound := hscope.lookup? name
        rw [he, hf]
        dsimp only
        rw [← hscope.parent, ← rel_isSome hbound]
        split
        · rfl
        · cases hparent : scope.parent with
          | none => rfl
          | some p => exact ih scope p he hparent

theorem lookupFrom? (h : e.Like K f) (name : String) (start : ScopeId) :
    Option.Rel (Value.Like K) (e.lookupFrom? name start) (f.lookupFrom? name start) := by
  induction start using e.scopes_induction with
  | step start ih =>
      rw [e.lookupFrom?_eq, f.lookupFrom?_eq]
      rcases rel_cases (h.scope start.index) with ⟨he, hf⟩ | ⟨scope, scope', he, hf, hscope⟩
      · rw [he, hf]
        exact .none
      · rw [he, hf]
        dsimp only
        rcases rel_cases (hscope.lookup? name) with ⟨hs, ht⟩ | ⟨v, w, hs, ht, hvalue⟩
        · rw [hs, ht, ← hscope.parent]
          cases hparent : scope.parent with
          | none => exact .none
          | some p => exact ih scope p he hparent
        · rw [hs, ht]
          exact .some hvalue

theorem lookup? (h : e.Like K f) (name : String) :
    Option.Rel (Value.Like K) (e.lookup? name) (f.lookup? name) := by
  rw [Environment.lookup?, Environment.lookup?, h.current]
  exact h.lookupFrom? name _

/-! ### Writing -/

theorem change (h : e.Like K f) (id : ScopeId) {g g' : Scope → Scope} {hg hg'}
    (hlike : ∀ {s t : Scope}, s.Like K t → (g s).Like K (g' t)) :
    (e.change id g hg).Like K (f.change id g' hg') := by
  refine ⟨?_, h.inner, h.kept⟩
  simp only [Environment.change, Array.toList_modify]
  exact forall₂_modify h.heap hlike _

theorem defineIn (h : e.Like K f) (id : ScopeId) (name : String) {v w : Value}
    (hvalue : v.Like K w) : (e.defineIn id name v).Like K (f.defineIn id name w) :=
  h.change id fun hscope => hscope.define name hvalue

theorem assignIn (h : e.Like K f) (id : ScopeId) (name : String) {v w : Value}
    (hvalue : v.Like K w) : (e.assignIn id name v).Like K (f.assignIn id name w) :=
  h.change id fun hscope => hscope.assign name hvalue

theorem define (h : e.Like K f) (name : String) {v w : Value} (hvalue : v.Like K w) :
    (e.define name v).Like K (f.define name w) := by
  rw [Environment.define, Environment.define, h.current]
  exact h.defineIn _ name hvalue

theorem enter (h : e.Like K f) {scope scope' : Scope} (hscope : scope.Like K scope') {hparent}
    {hparent'} : (e.enter scope hparent).Like K (f.enter scope' hparent') := by
  refine ⟨?_, ?_, h.kept⟩
  · simp only [Environment.enter, Array.toList_push]
    exact forall₂_append h.heap (.cons hscope .nil)
  · simp only [Environment.enter, h.inner, h.size]

theorem push (h : e.Like K f) : e.push.Like K f.push := by
  have hscope : Scope.Like K (.empty (some e.current)) (.empty (some f.current)) :=
    ⟨.same _, congrArg some h.current, rfl⟩
  exact h.enter hscope

theorem pushDetached (h : e.Like K f) (parent : Option ScopeId) :
    (e.pushDetached parent).Like K (f.pushDetached parent) := by
  have hscope : (e.emptyScope parent).Like K (f.emptyScope parent) :=
    ⟨.same _, by simp only [Environment.emptyScope, h.size], rfl⟩
  exact h.enter hscope

theorem pop (h : e.Like K f) : e.pop.Like K f.pop := by
  refine ⟨?_, ?_, ?_⟩
  · rw [e.pop_heap, f.pop_heap, ← h.inner, ← h.kept]
    cases e.inner with
    | nil => exact h.heap
    | cons id outer =>
        simp only [Array.shrink_eq_take, Array.take_eq_extract, Array.toList_extract,
          List.extract_eq_take_drop, List.drop_zero, Nat.sub_zero]
        exact List.forall₂_take _ h.heap
  · rw [e.pop_inner, f.pop_inner, h.inner]
  · rw [e.pop_kept, f.pop_kept, h.kept]

theorem capture (h : e.Like K f) :
    e.capture.1 = f.capture.1 ∧ e.capture.2.Like K f.capture.2 :=
  ⟨h.current, h.heap, h.inner, by simp only [Environment.capture, h.kept, h.current]⟩

end Environment.Like

/-! ## Coming back to the same scopes -/

/-- The same scope later: more may be bound in it. -/
structure Scope.Grown (s t : Scope) : Prop where
  parent : t.parent = s.parent
  bound : ∀ name, (s.lookup? name).isSome → (t.lookup? name).isSome

/-- The same scopes at work, and all other scopes that there were. -/
structure Environment.Restored (e f : Environment) : Prop where
  inner : f.inner = e.inner
  kept : e.kept ≤ f.kept
  scopes : ∀ (i : Nat) (scope : Scope), e.heap[i]? = some scope →
    ∃ later, f.heap[i]? = some later ∧ scope.Grown later

theorem Scope.Grown.refl (s : Scope) : s.Grown s := ⟨rfl, fun _ => id⟩

theorem Scope.Grown.trans {s t u : Scope} (h : s.Grown t) (h' : t.Grown u) : s.Grown u :=
  ⟨h'.parent.trans h.parent, fun name hname => h'.bound name (h.bound name hname)⟩

theorem Scope.Grown.define (s : Scope) (name : String) (value : Value) :
    s.Grown (s.define name value) := by
  refine ⟨rfl, fun other hother => ?_⟩
  simp only [Scope.lookup?, Scope.binding?, Scope.define, Std.TreeMap.getElem?_insert]
  split
  · rfl
  · exact hother

theorem Scope.Grown.assign (s : Scope) (name : String) (value : Value) :
    s.Grown (s.assign name value) := by
  refine ⟨s.parent_assign name value, fun other hother => ?_⟩
  unfold Scope.assign
  split
  · simp only [Scope.lookup?, Scope.binding?, Std.TreeMap.getElem?_insert]
    split
    · rfl
    · exact hother
  · exact hother

namespace Environment.Restored

variable {e f g : Environment}

theorem refl (e : Environment) : e.Restored e :=
  ⟨rfl, Nat.le_refl _, fun _ scope h => ⟨scope, h, .refl scope⟩⟩

theorem trans (h : e.Restored f) (h' : f.Restored g) : e.Restored g := by
  refine ⟨h'.inner.trans h.inner, Nat.le_trans h.kept h'.kept, fun i scope hscope => ?_⟩
  obtain ⟨later, hlater, hgrown⟩ := h.scopes i scope hscope
  obtain ⟨last, hlast, hgrown'⟩ := h'.scopes i later hlater
  exact ⟨last, hlast, hgrown.trans hgrown'⟩

theorem change (e : Environment) (id : ScopeId) {g : Scope → Scope} {hg}
    (hgrown : ∀ scope : Scope, scope.Grown (g scope)) : e.Restored (e.change id g hg) := by
  refine ⟨rfl, Nat.le_refl _, fun i scope hscope => ?_⟩
  simp only [Environment.change, Array.getElem?_modify, hscope, Option.map_some]
  split
  · exact ⟨_, rfl, hgrown scope⟩
  · exact ⟨_, rfl, .refl scope⟩

theorem defineIn (e : Environment) (id : ScopeId) (name : String) (value : Value) :
    e.Restored (e.defineIn id name value) :=
  .change e id fun scope => .define scope name value

theorem assignIn (e : Environment) (id : ScopeId) (name : String) (value : Value) :
    e.Restored (e.assignIn id name value) :=
  .change e id fun scope => .assign scope name value

theorem capture (e : Environment) : e.Restored e.capture.2 :=
  ⟨rfl, Nat.le_max_left _ _, fun _ scope h => ⟨scope, h, .refl scope⟩⟩

/-- A scope that is left again leaves the scopes that were there before. -/
theorem pop {scope : Scope} {hparent} (h : (e.enter scope hparent).Restored f) :
    e.Restored f.pop := by
  have hinner : f.inner = ⟨e.heap.size⟩ :: e.inner := h.inner
  refine ⟨?_, ?_, fun i old hold => ?_⟩
  · rw [f.pop_inner, hinner, List.tail_cons]
  · rw [f.pop_kept]
    exact h.kept
  · have hlt : i < e.heap.size := (Array.getElem?_eq_some_iff.1 hold).1
    have hentered : (e.enter scope hparent).heap[i]? = some old := by
      simp only [Environment.enter, Array.getElem?_push]
      rw [if_neg (Nat.ne_of_lt hlt), hold]
    obtain ⟨later, hlater, hgrown⟩ := h.scopes i old hentered
    refine ⟨later, ?_, hgrown⟩
    rw [f.pop_heap, hinner]
    simp only [Array.shrink_eq_take, Array.take_eq_extract, Array.getElem?_extract]
    rw [if_pos (by
      have := (Array.getElem?_eq_some_iff.1 hlater).1
      omega), Nat.zero_add, hlater]

end Environment.Restored

end TwoPhase
