import TwoPhase.Parser.Basic
import TwoPhase.Proofs.Likeness.Environment

/-!
# Environments for sound code

The parser resolves a name by what is declared before it in the scopes around it.  Running code
looks the name up by what the scopes at work hold at that moment.  An environment provides lexical
scopes if its scopes hold what these declare (`Environment.Provides`).

The scopes of the function at work hold that and nothing else, since only the code of a block
introduces variables in its scope, one after the other.  Captured scopes may have gone on: a block
that made a closure may introduce further variables before the closure is called, and may give them
names that an outer scope has.  Every variable has a number in its scope, by which those are told
apart that the parser knew of.

So the name finds a variable always (`Environment.Provides.finds`), and unless a captured scope has
gone on, that of its declaration.
-/

namespace TwoPhase

open TwoPhase.Parser

variable {s t u : Scope} {l : LexicalScope} {e f g : Environment} {floor : Nat} {id : ScopeId}
  {scopes : List LexicalScope}

/-! ## Scopes -/

namespace Scope

/-- The number of the variable of a name. -/
def index? (s : Scope) (name : String) : Option Nat := (s.binding? name).map (·.index)

@[simp] theorem index?_empty (parent : Option ScopeId) (name : String) :
    (empty parent).index? name = none := by
  simp [index?, binding?, empty]

theorem index?_define (s : Scope) (name other : String) (value : Value) :
    (s.define name value).index? other =
      if name = other then some s.introduced else s.index? other := by
  simp only [index?, binding?, define, Std.TreeMap.getElem?_insert,
    Std.LawfulEqOrd.compare_eq_iff_eq]
  split <;> rfl

theorem index?_assign (s : Scope) (name other : String) (value : Value) :
    (s.assign name value).index? other = s.index? other := by
  unfold assign
  split
  · rename_i v hv
    simp only [index?, binding?, Std.TreeMap.getElem?_insert, Std.LawfulEqOrd.compare_eq_iff_eq]
    split
    · rename_i hname
      subst hname
      have hv : s.bindings[name]? = some v := hv
      rw [hv]
      rfl
    · rfl
  · rfl

theorem introduced_assign (s : Scope) (name : String) (value : Value) :
    (s.assign name value).introduced = s.introduced := by
  unfold assign
  split <;> rfl

/-- A scope with the same variables, which may have other values. -/
structure Same (s t : Scope) : Prop where
  parent : t.parent = s.parent
  introduced : t.introduced = s.introduced
  index : ∀ name, t.index? name = s.index? name

/-- A scope that may have introduced further variables. -/
structure Later (s t : Scope) : Prop where
  parent : t.parent = s.parent
  introduced : s.introduced ≤ t.introduced
  bound : ∀ name, (s.index? name).isSome → (t.index? name).isSome
  index : ∀ name index, t.index? name = some index →
    s.index? name = some index ∨ s.introduced ≤ index

theorem Same.refl (s : Scope) : s.Same s := ⟨rfl, rfl, fun _ => rfl⟩

theorem Same.trans (h : s.Same t) (h' : t.Same u) : s.Same u :=
  ⟨h'.parent.trans h.parent, h'.introduced.trans h.introduced,
    fun name => (h'.index name).trans (h.index name)⟩

theorem Same.later (h : s.Same t) : s.Later t :=
  ⟨h.parent, Nat.le_of_eq h.introduced.symm, fun name hname => h.index name ▸ hname,
    fun name _ hindex => .inl (h.index name ▸ hindex)⟩

theorem Same.assign (s : Scope) (name : String) (value : Value) : s.Same (s.assign name value) :=
  ⟨s.parent_assign name value, s.introduced_assign name value,
    fun other => s.index?_assign name other value⟩

theorem Later.trans (h : s.Later t) (h' : t.Later u) : s.Later u := by
  refine ⟨h'.parent.trans h.parent, Nat.le_trans h.introduced h'.introduced,
    fun name hname => h'.bound name (h.bound name hname), fun name index hindex => ?_⟩
  rcases h'.index name index hindex with hold | hnew
  · exact h.index name index hold
  · exact .inr (Nat.le_trans h.introduced hnew)

theorem Later.define (s : Scope) (name : String) (value : Value) :
    s.Later (s.define name value) := by
  refine ⟨rfl, Nat.le_succ _, fun other hother => ?_, fun other index hindex => ?_⟩
  · rw [index?_define]
    split
    · rfl
    · exact hother
  · rw [index?_define] at hindex
    split at hindex
    · exact .inr (Nat.le_of_eq (Option.some.inj hindex))
    · exact .inl hindex

/-- A scope that has introduced what is declared, and nothing else. -/
structure Exact (s : Scope) (l : LexicalScope) : Prop where
  introduced : s.introduced = l.declared
  index : ∀ name, s.index? name = l.names[name]?

/-- A scope that has introduced what is declared, and perhaps more after it. -/
structure Covers (s : Scope) (l : LexicalScope) : Prop where
  introduced : l.declared ≤ s.introduced
  bound : ∀ name, (l.names[name]?).isSome → (s.index? name).isSome
  index : ∀ name index, s.index? name = some index →
    l.names[name]? = some index ∨ l.declared ≤ index

theorem Exact.covers (h : s.Exact l) : s.Covers l :=
  ⟨Nat.le_of_eq h.introduced.symm, fun name hname => h.index name ▸ hname,
    fun name _ hindex => .inl (h.index name ▸ hindex)⟩

theorem Exact.empty (parent : Option ScopeId) (kind : ScopeKind) :
    (Scope.empty parent).Exact (.empty kind) :=
  ⟨rfl, fun name => by simp [LexicalScope.empty]⟩

theorem Exact.define (h : s.Exact l) (name : String) (value : Value) :
    (s.define name value).Exact (l.declare name) := by
  refine ⟨congrArg (· + 1) h.introduced, fun other => ?_⟩
  simp only [index?_define, h.index, h.introduced, LexicalScope.declare,
    Std.TreeMap.getElem?_insert, Std.LawfulEqOrd.compare_eq_iff_eq]

theorem Exact.same (h : s.Exact l) (hsame : s.Same t) : t.Exact l :=
  ⟨hsame.introduced.trans h.introduced, fun name => (hsame.index name).trans (h.index name)⟩

theorem Covers.later (h : s.Covers l) (hlater : s.Later t) : t.Covers l := by
  refine ⟨Nat.le_trans h.introduced hlater.introduced,
    fun name hname => hlater.bound name (h.bound name hname), fun name index hindex => ?_⟩
  rcases hlater.index name index hindex with hold | hnew
  · exact h.index name index hold
  · exact .inr (Nat.le_trans h.introduced hnew)

end Scope

/-! ## Coming back to the same variables -/

namespace Environment

/-- The scopes that there were, where the oldest have introduced nothing. -/
structure After (floor : Nat) (e f : Environment) : Prop extends Restored e f where
  later : ∀ (i : Nat) (scope new : Scope), e.heap[i]? = some scope → f.heap[i]? = some new →
    scope.Later new ∧ (i < floor → scope.Same new)

/-- The scopes that stay when they are popped are still there. -/
structure Outlived (e f : Environment) : Prop where
  kept : e.kept ≤ f.kept
  later : ∀ (i : Nat) (scope : Scope), i < e.kept → e.heap[i]? = some scope →
    ∃ new, f.heap[i]? = some new ∧ scope.Later new

theorem size_le_enter (e : Environment) (scope : Scope) (hparent) :
    e.heap.size ≤ (e.enter scope hparent).heap.size := by
  simp [enter]

theorem enter_heap (e : Environment) (scope : Scope) (hparent) {i : Nat} {old : Scope}
    (h : e.heap[i]? = some old) : (e.enter scope hparent).heap[i]? = some old := by
  have hlt := (Array.getElem?_eq_some_iff.1 h).1
  simp only [Environment.enter, Array.getElem?_push]
  rw [if_neg (Nat.ne_of_lt hlt), h]

namespace After

theorem refl (e : Environment) : e.After floor e := by
  refine ⟨.refl e, fun i scope new hscope hnew => ?_⟩
  obtain rfl : scope = new := Option.some.inj (hscope.symm.trans hnew)
  exact ⟨(Scope.Same.refl _).later, fun _ => .refl _⟩

theorem trans (h : e.After floor f) (h' : f.After floor g) : e.After floor g := by
  refine ⟨h.toRestored.trans h'.toRestored, fun i scope new hscope hnew => ?_⟩
  obtain ⟨between, hbetween, _⟩ := h.scopes i scope hscope
  obtain ⟨hlater, hsame⟩ := h.later i scope between hscope hbetween
  obtain ⟨hlater', hsame'⟩ := h'.later i between new hbetween hnew
  exact ⟨hlater.trans hlater', fun hi => (hsame hi).trans (hsame' hi)⟩

theorem mono {least : Nat} (h : e.After floor f) (hle : least ≤ floor) : e.After least f :=
  ⟨h.toRestored, fun i scope new hscope hnew =>
    ⟨(h.later i scope new hscope hnew).1,
      fun hi => (h.later i scope new hscope hnew).2 (Nat.lt_of_lt_of_le hi hle)⟩⟩

theorem size (h : e.After floor f) : e.heap.size ≤ f.heap.size := by
  by_contra hsize
  have hlt : f.heap.size < e.heap.size := Nat.lt_of_not_le hsize
  obtain ⟨later, hlater, _⟩ := h.scopes f.heap.size e.heap[f.heap.size]
    (Array.getElem?_eq_getElem hlt)
  exact absurd (Array.getElem?_eq_some_iff.1 hlater).1 (Nat.lt_irrefl _)

theorem current (h : e.After floor f) : f.current = e.current := by
  rw [Environment.current, Environment.current, h.inner]

theorem change {k : Scope → Scope} {hk} (hrestored : e.Restored (e.change id k hk))
    (hlater : ∀ scope : Scope, scope.Later (k scope))
    (hsame : id.index < floor → ∀ scope : Scope, scope.Same (k scope)) :
    e.After floor (e.change id k hk) := by
  refine ⟨hrestored, fun i scope new hscope hnew => ?_⟩
  simp only [Environment.change, Array.getElem?_modify, hscope, Option.map_some] at hnew
  split at hnew
  · rename_i hi
    cases hnew
    exact ⟨hlater scope, fun hlt => hsame (hi ▸ hlt) scope⟩
  · cases hnew
    exact ⟨(Scope.Same.refl _).later, fun _ => .refl _⟩

theorem defineIn (name : String) (value : Value) (hid : floor ≤ id.index) :
    e.After floor (e.defineIn id name value) :=
  change (.defineIn e id name value) (fun scope => .define scope name value)
    fun hlt => absurd hlt (Nat.not_lt.2 hid)

theorem assignIn (name : String) (value : Value) : e.After floor (e.assignIn id name value) :=
  change (.assignIn e id name value) (fun scope => (Scope.Same.assign scope name value).later)
    fun _ scope => .assign scope name value

theorem capture (e : Environment) : e.After floor e.capture.2 :=
  ⟨.capture e, (refl e : e.After floor e).later⟩

/-- A scope that is left again leaves the others as they were. -/
theorem pop {scope : Scope} {hparent} (h : (e.enter scope hparent).After floor f) :
    e.After floor f.pop := by
  have hrestored : e.Restored f.pop := Restored.pop h.toRestored
  refine ⟨hrestored, fun i old new hold hnew => ?_⟩
  obtain ⟨later, hlater, _⟩ := h.scopes i old (e.enter_heap scope hparent hold)
  have hpopped : f.pop.heap[i]? = some later := by
    have hlt := (Array.getElem?_eq_some_iff.1 hnew).1
    rw [f.pop_heap] at hlt ⊢
    split
    · exact hlater
    · rename_i hinner
      simp only [hinner, Array.size_shrink] at hlt
      simp only [Array.shrink_eq_take, Array.take_eq_extract, Array.getElem?_extract]
      rw [if_pos (by omega), Nat.zero_add, hlater]
  obtain rfl : later = new := Option.some.inj (hpopped.symm.trans hnew)
  exact h.later i old later (e.enter_heap scope hparent hold) hlater

theorem outlived (h : e.After floor f) : e.Outlived f := by
  refine ⟨h.kept, fun i scope _ hscope => ?_⟩
  obtain ⟨new, hnew, _⟩ := h.scopes i scope hscope
  exact ⟨new, hnew, (h.later i scope new hscope hnew).1⟩

end After

namespace Outlived

theorem refl (e : Environment) : e.Outlived e :=
  (.refl e : e.After 0 e).outlived

theorem enter (e : Environment) (scope : Scope) (hparent) : e.Outlived (e.enter scope hparent) :=
  ⟨Nat.le_refl _, fun _ old _ hold =>
    ⟨old, e.enter_heap scope hparent hold, (Scope.Same.refl old).later⟩⟩

theorem pop (e : Environment) : e.Outlived e.pop := by
  refine ⟨Nat.le_of_eq e.pop_kept.symm, fun i scope hi hscope => ?_⟩
  refine ⟨scope, ?_, (Scope.Same.refl scope).later⟩
  have hlt := (Array.getElem?_eq_some_iff.1 hscope).1
  rw [e.pop_heap]
  split
  · exact hscope
  · simp only [Array.shrink_eq_take, Array.take_eq_extract, Array.getElem?_extract]
    rw [if_pos (by omega), Nat.zero_add, hscope]

end Outlived

/-! ## What environments provide -/

/-- An environment holds what lexical scopes declare, as seen from one of its scopes, and those of
the function at work hold nothing else, if it is `own` code that sees them. -/
inductive Provides (e : Environment) : Prop → Option ScopeId → List LexicalScope → Prop where
  | nil {own : Prop} {start : Option ScopeId} : Provides e own start []
  | cons {own : Prop} {id : ScopeId} {scope : Scope} {l : LexicalScope} {outer : List LexicalScope}
      (hscope : e.heap[id.index]? = some scope) (hcovers : scope.Covers l)
      (hexact : own → scope.Exact l)
      (houter : l.kind.isBarrier = false →
        Provides e (own ∧ l.kind ≠ .closure) scope.parent outer) :
      Provides e own (some id) (l :: outer)

namespace Provides

variable {own own' : Prop} {start : Option ScopeId}

/-- What an environment provides, another does whose scopes have gone on from there. -/
theorem mono (h : e.Provides own start scopes) (hown : own' → own)
    (hlater : ∀ id ∈ start, ∀ i ≤ id.index, ∀ scope, e.heap[i]? = some scope →
      ∃ new, f.heap[i]? = some new ∧ scope.Later new ∧ (own' → scope.Same new)) :
    f.Provides own' start scopes := by
  induction h generalizing own' with
  | nil => exact .nil
  | @cons own id scope l outer hscope hcovers hexact _ ih =>
      obtain ⟨new, hnew, hthere, hsame⟩ := hlater id rfl id.index (Nat.le_refl _) scope hscope
      refine .cons hnew (hcovers.later hthere) (fun h => (hexact (hown h)).same (hsame h))
        fun hbarrier => ?_
      rw [hthere.parent]
      refine ih hbarrier (fun h => ⟨hown h.1, h.2⟩) fun p hp i hi old hold => ?_
      have hlt := e.parent_lt id.index scope p hscope hp
      obtain ⟨new, hnew, hthere, hsame⟩ := hlater id rfl i (by omega) old hold
      exact ⟨new, hnew, hthere, fun h => hsame h.1⟩

/-- A closure that is made here sees what there is here, whenever it is called. -/
theorem captured (h : e.Provides own start scopes) : e.Provides False start scopes :=
  h.mono False.elim fun _ _ _ _ scope hscope =>
    ⟨scope, hscope, (Scope.Same.refl scope).later, fun _ => .refl scope⟩

theorem after (h : e.Provides own (some id) scopes) (hafter : e.After floor f)
    (hid : id.index < floor) : f.Provides own (some id) scopes := by
  refine h.mono (fun h => h) fun _ hmem i hi scope hscope => ?_
  cases hmem
  obtain ⟨new, hnew, _⟩ := hafter.scopes i scope hscope
  obtain ⟨hlater, hsame⟩ := hafter.later i scope new hscope hnew
  exact ⟨new, hnew, hlater, fun _ => hsame (by omega)⟩

theorem outlived (h : e.Provides False (some id) scopes) (houtlived : e.Outlived f)
    (hid : id.index < e.kept) : f.Provides False (some id) scopes := by
  refine h.mono (fun h => h) fun _ hmem i hi scope hscope => ?_
  cases hmem
  obtain ⟨new, hnew, hlater⟩ := houtlived.later i scope (by omega) hscope
  exact ⟨new, hnew, hlater, False.elim⟩

/-- A scope that is entered around nothing yet. -/
theorem enter {parent : Option ScopeId} {kind : ScopeKind} (hparent)
    (h : kind.isBarrier = false → e.Provides (own ∧ kind ≠ .closure) parent scopes) :
    (e.enter (.empty parent) hparent).Provides own (some ⟨e.heap.size⟩)
      (.empty kind :: scopes) := by
  have hexact := Scope.Exact.empty parent kind
  have hscope : (e.enter (.empty parent) hparent).heap[e.heap.size]? = some (.empty parent) := by
    simp [Environment.enter]
  refine .cons hscope hexact.covers (fun _ => hexact) fun hbarrier => ?_
  exact (h hbarrier).mono (fun h => h) fun _ _ _ _ scope hscope =>
    ⟨scope, e.enter_heap _ hparent hscope, (Scope.Same.refl scope).later, fun _ => .refl scope⟩

/-- A block that is entered sees what there is around it. -/
theorem push {kind : ScopeKind} (h : e.Provides True (some e.current) scopes) :
    e.push.Provides True (some e.push.current) (.empty kind :: scopes) :=
  enter _ fun _ => h.mono (fun h => h.1) fun _ _ _ _ scope hscope =>
    ⟨scope, hscope, (Scope.Same.refl scope).later, fun _ => .refl scope⟩

/-- A function that is entered sees what it captured, and other code nothing. -/
theorem pushDetached {kind : ScopeKind} {parent : Option ScopeId}
    (h : kind.isBarrier = false → scopes = [] ∨ kind = .closure ∧
      ∃ scope, parent = some scope ∧ scope.index < e.kept ∧ e.Provides False (some scope) scopes) :
    (e.pushDetached parent).Provides True (some (e.pushDetached parent).current)
      (.empty kind :: scopes) := by
  refine enter _ fun hbarrier => ?_
  rcases h hbarrier with rfl | ⟨rfl, scope, rfl, hkept, hprovides⟩
  · exact .nil
  · have hlt : scope.index < e.heap.size := Nat.lt_of_lt_of_le hkept e.kept_le
    rw [Option.filter_some, if_pos (decide_eq_true hlt)]
    exact hprovides.mono (fun h => h.2 rfl) fun _ _ _ _ scope hscope =>
      ⟨scope, hscope, (Scope.Same.refl scope).later, fun _ => .refl scope⟩

/-- A variable that is introduced as it is declared. -/
theorem define {outer : List LexicalScope} (h : e.Provides own (some e.current) (l :: outer))
    (hown : own) (name : String) (value : Value) :
    (e.define name value).Provides own (some e.current) (l.declare name :: outer) := by
  cases h with
  | @cons _ _ scope _ _ hscope hcovers hexact houter =>
      have hafter : e.After e.current.index (e.define name value) :=
        .defineIn name value (Nat.le_refl _)
      have hdefined := (hexact hown).define name value
      have hnew : (e.define name value).heap[e.current.index]? =
          some (scope.define name value) := by
        simp only [Environment.define, Environment.defineIn, Environment.change,
          Array.getElem?_modify, if_true, hscope, Option.map_some]
      refine .cons hnew hdefined.covers (fun _ => hdefined) fun hbarrier => ?_
      · have hparent : (scope.define name value).parent = scope.parent := rfl
        rw [hparent]
        cases hp : scope.parent with
        | none =>
            have hnone := houter hbarrier
            rw [hp] at hnone
            cases hnone
            exact .nil
        | some p =>
            have hsome := houter hbarrier
            rw [hp] at hsome
            exact hsome.after hafter (e.parent_lt _ _ _ hscope hp)

end Provides

/-! ## Finding variables -/

/-- The scope some steps outwards from a scope. -/
def outwards? (e : Environment) (start : ScopeId) : Nat → Option ScopeId
  | 0 => some start
  | steps + 1 =>
    match (e.heap[start.index]?).bind (·.parent) with
    | none => none
    | some parent => e.outwards? parent steps

/-- The variable of a name in a scope. -/
def variableIn? (e : Environment) (id : ScopeId) (name : String) : Option Variable :=
  (e.heap[id.index]?).bind (·.binding? name)

/-- What a name finds from a scope: a variable in a scope some steps outwards. -/
structure Finds (e : Environment) (name : String) (start : ScopeId) (steps : Nat)
    (owner : ScopeId) (v : Variable) : Prop where
  outwards : e.outwards? start steps = some owner
  definer : e.definer? name start = some owner
  lookup : e.lookupFrom? name start = some v.value
  found : e.variableIn? owner name = some v

/-- A variable of a scope some steps outwards is that of the declaration that a lexical name was
resolved to. -/
def Declared (ref : LexicalRef) (steps : Nat) (v : Variable) : Prop :=
  steps + 1 = ref.seen.length ∧ v.index = ref.index

/-- A variable of a scope some steps outwards was introduced behind all that the parser had seen
declared there. -/
def Belated (ref : LexicalRef) (steps : Nat) (v : Variable) : Prop :=
  ∃ seen, ref.seen[steps]? = some seen ∧ seen ≤ v.index

variable {name : String} {scope : Scope} {v : Variable}

/-- A variable in a scope is found from there. -/
theorem Finds.here (hscope : e.heap[id.index]? = some scope) (hv : scope.binding? name = some v) :
    e.Finds name id 0 id v where
  outwards := rfl
  definer := by simp [e.definer?_eq, hscope, Scope.lookup?, hv]
  lookup := by simp [e.lookupFrom?_eq, hscope, Scope.lookup?, hv]
  found := by simp [variableIn?, hscope, hv]

/-- What a scope does not hold is found from the scope around it. -/
theorem Finds.outer {parent owner : ScopeId} {steps : Nat} (hscope : e.heap[id.index]? = some scope)
    (hnone : scope.binding? name = none) (hparent : scope.parent = some parent)
    (h : e.Finds name parent steps owner v) : e.Finds name id (steps + 1) owner v where
  outwards := by simp [outwards?, hscope, hparent, h.outwards]
  definer := by
    rw [e.definer?_eq, hscope]
    simp [Scope.lookup?, hnone, hparent, h.definer]
  lookup := by
    rw [e.lookupFrom?_eq, hscope]
    simp [Scope.lookup?, hnone, hparent, h.lookup]
  found := h.found

/-- A lexical name finds the variable of its declaration, or one that was introduced later in a
scope that is not farther out.  The latter are captured, if it is own code that looks. -/
theorem Provides.finds {own : Prop} {ref : LexicalRef} (h : e.Provides own (some id) scopes)
    (href : lexical? name scopes = some ref) :
    ∃ steps owner v, e.Finds name id steps owner v ∧
      (Declared ref steps v ∨ Belated ref steps v ∧ (own → ref.own ≤ steps)) := by
  induction scopes generalizing id own ref with
  | nil => cases href
  | cons l outer ih =>
      cases h with
      | @cons _ _ scope _ _ hscope hcovers hexact houter =>
      cases hbinding : scope.binding? name with
      | some v =>
          have hindex : scope.index? name = some v.index := by rw [Scope.index?, hbinding]; rfl
          refine ⟨0, id, v, .here hscope hbinding, ?_⟩
          by_cases hnames : l.names[name]? = some v.index
          · obtain ⟨index, hdeclared, rfl⟩ | ⟨hnone, _⟩ := lexical?_cons href
            · cases hnames.symm.trans hdeclared
              exact .inl ⟨rfl, rfl⟩
            · cases hnames.symm.trans hnone
          · have hseen : ref.seen[0]? = some l.declared := by
              obtain ⟨_, _, rfl⟩ | ⟨_, _, _, _, rfl⟩ := lexical?_cons href <;> rfl
            refine .inr ⟨⟨l.declared, hseen, ?_⟩, fun hown => ?_⟩
            · exact (hcovers.index name v.index hindex).resolve_left hnames
            · exact absurd (((hexact hown).index name).symm.trans hindex) hnames
      | none =>
          have hnames : l.names[name]? = none := by
            by_contra hsome
            have hbound := hcovers.bound name (Option.isSome_iff_ne_none.2 hsome)
            rw [Scope.index?, hbinding] at hbound
            cases hbound
          obtain ⟨index, hdeclared, _⟩ | ⟨_, hbarrier, far, hfar, rfl⟩ := lexical?_cons href
          · cases hnames.symm.trans hdeclared
          have hprovides := houter hbarrier
          cases hparent : scope.parent with
          | none =>
              rw [hparent] at hprovides
              cases hprovides
              cases hfar
          | some parent =>
              rw [hparent] at hprovides
              obtain ⟨steps, owner, v, hfinds, hcase⟩ := ih hprovides hfar
              refine ⟨steps + 1, owner, v, hfinds.outer hscope hbinding hparent, ?_⟩
              rcases hcase with ⟨hsteps, hindex⟩ | ⟨⟨seen, hseen, hlater⟩, hown⟩
              · exact .inl ⟨by simp [hsteps], hindex⟩
              · refine .inr ⟨⟨seen, by simpa using hseen, hlater⟩, fun hhere => ?_⟩
                dsimp only
                split
                · exact Nat.le_add_left 1 steps
                · rename_i hkind
                  exact Nat.succ_le_succ (hown ⟨hhere, hkind⟩)

end Environment

end TwoPhase
