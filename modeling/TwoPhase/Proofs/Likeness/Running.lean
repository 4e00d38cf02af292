import TwoPhase.Proofs.Likeness.Sim
import TwoPhase.Proofs.Likeness.State

/-!
# Running code side by side

Two runs of code are compared while their states are alike.  Where spans do not count, the first
runs in line mode and the second in precise mode; where frames do not count, neither has a limit on
its calls.  What such a comparison does not cover is counted: warnings of line mode, texts spliced
in by hand, and questions for the callers.

Whatever code does, it comes back to the same depth, units, scopes, frames, lists of waiting blocks
and current unit (`Restored`), so what holds of these is a guard of every run.  `Aligned` is such a
guard: the depth is the number of units under construction, the `begin` blocks at work are theirs,
and the call stack has not passed its limit.
-/

namespace TwoPhase.Interpreter

variable {K : Comparison} {s t u s' t' : State}

/-! ## What is counted -/

/-- How many warnings are those of line mode. -/
def lineWarnings (warnings : Array UnitWarning) : Nat :=
  warnings.toList.countP (·.diagnostic.code == .extraTextBeforeInjection)

/-- How many warnings of line mode wait to be taken. -/
def State.lineWarnings (s : State) : Nat := Interpreter.lineWarnings s.warnings

/-- Whether text was spliced in by hand. -/
def Event.isSplice : Event → Bool
  | spliced .. => true
  | _ => false

/-- How often text was spliced in by hand. -/
def State.splices (s : State) : Nat := s.history.countP Event.isSplice

/-- Something happened that a comparison does not cover. -/
def Loud (K : Comparison) (s : State) : Prop :=
  ¬K.exact ∧ (K.warned < s.lineWarnings ∨ K.spliced < s.splices) ∨ ¬K.frames ∧ K.asked < s.asked

/-! ## What code restores -/

/-- What of a unit under construction code cannot change. -/
def Construction.identity (unit : Construction) : UnitId × String × UnitOrigin :=
  (unit.id, unit.name, unit.origin)

/-- Two states of one run at the same place: all that is entered and left again is as before. -/
structure Restored (s t : State) : Prop where
  depth : t.depth = s.depth
  nesting : t.nesting = s.nesting
  /-- Splices change the buffer of the innermost unit at most. -/
  units : t.units.map Construction.identity = s.units.map Construction.identity
  outerUnits : t.units.tail = s.units.tail
  mode : t.deferral.mode = s.deferral.mode
  env : s.env.Restored t.env
  frames : t.calls.frames = s.calls.frames
  limit : t.calls.limit = s.calls.limit
  peak : s.calls.peak ≤ t.calls.peak
  bounded : ∀ limit, s.calls.limit = some limit → t.calls.peak ≤ max s.calls.peak limit
  /-- Blocks may have been put off to the exit of the innermost block. -/
  exits : t.exits.length = s.exits.length
  outerExits : t.exits.tail = s.exits.tail
  currentUnit : t.currentUnit = s.currentUnit
  asked : s.asked ≤ t.asked
  warned : s.lineWarnings ≤ t.lineWarnings
  /-- No other warnings are given. -/
  unwarned : t.lineWarnings = s.lineWarnings → t.warnings = s.warnings
  spliced : s.splices ≤ t.splices

namespace Restored

theorem refl (s : State) : Restored s s where
  depth := rfl
  nesting := rfl
  units := rfl
  outerUnits := rfl
  mode := rfl
  env := .refl _
  frames := rfl
  limit := rfl
  peak := Nat.le_refl _
  bounded _ _ := Nat.le_max_left _ _
  exits := rfl
  outerExits := rfl
  currentUnit := rfl
  asked := Nat.le_refl _
  warned := Nat.le_refl _
  unwarned _ := rfl
  spliced := Nat.le_refl _

theorem trans (h : Restored s t) (h' : Restored t u) : Restored s u where
  depth := h'.depth.trans h.depth
  nesting := h'.nesting.trans h.nesting
  units := h'.units.trans h.units
  outerUnits := h'.outerUnits.trans h.outerUnits
  mode := h'.mode.trans h.mode
  env := h.env.trans h'.env
  frames := h'.frames.trans h.frames
  limit := h'.limit.trans h.limit
  peak := Nat.le_trans h.peak h'.peak
  bounded limit hlimit := by
    have hfirst := h.bounded limit hlimit
    have hsecond := h'.bounded limit (h.limit.trans hlimit)
    omega
  exits := h'.exits.trans h.exits
  outerExits := h'.outerExits.trans h.outerExits
  currentUnit := h'.currentUnit.trans h.currentUnit
  asked := Nat.le_trans h.asked h'.asked
  warned := Nat.le_trans h.warned h'.warned
  unwarned hsame := by
    have hfirst := h.warned
    have hsecond := h'.warned
    exact (h'.unwarned (by omega)).trans (h.unwarned (by omega))
  spliced := Nat.le_trans h.spliced h'.spliced

theorem loud (h : Restored s t) (hs : Loud K s) : Loud K t := by
  rcases hs with ⟨hspans, hwarned | hspliced⟩ | ⟨hframes, hasked⟩
  · exact .inl ⟨hspans, .inl (Nat.lt_of_lt_of_le hwarned h.warned)⟩
  · exact .inl ⟨hspans, .inr (Nat.lt_of_lt_of_le hspliced h.spliced)⟩
  · exact .inr ⟨hframes, Nat.lt_of_lt_of_le hasked h.asked⟩

end Restored

/-! ## States side by side -/

/-- States of two runs that are compared. -/
structure Matched (K : Comparison) (s t : State) : Prop where
  like : s.Like K t
  modes : ¬K.exact → s.deferral.mode = .line ∧ t.deferral.mode = .precise
  unlimited : ¬K.frames → s.calls.limit = none ∧ t.calls.limit = none
  warned : K.warned ≤ s.lineWarnings
  spliced : K.spliced ≤ s.splices
  asked : K.asked ≤ s.asked

/-- States that are alike are matched after what any code does as they were before. -/
theorem Matched.moves (h : Matched K s t) (hs : Restored s s') (ht : Restored t t')
    (hlike : s'.Like K t') : Matched K s' t' where
  like := hlike
  modes hspans := by
    rw [hs.mode, ht.mode]
    exact h.modes hspans
  unlimited hframes := by
    rw [hs.limit, ht.limit]
    exact h.unlimited hframes
  warned := Nat.le_trans h.warned hs.warned
  spliced := Nat.le_trans h.spliced hs.spliced
  asked := Nat.le_trans h.asked hs.asked

/-- How running code is compared. -/
@[reducible] def running (K : Comparison) : Run.Setting K State where
  Rel := Matched K
  Moves := Restored
  Loud := Loud K
  like := Matched.like
  refl := .refl
  trans := .trans
  loud h := h.loud

/-! ## Depth and units -/

/-- The name of the frames of `begin` blocks of a unit. -/
def Construction.beginName (unit : Construction) : String := s!"{unit.name}::BEGIN"

/-- The names of the `begin` blocks at work, innermost first. -/
def State.begins (s : State) : List String :=
  (s.calls.frames.filter (·.kind = .beginBlock)).map (·.name)

/-- The depth counts the units under construction, and every one of them has a `begin` block at
work. -/
structure Aligned (s : State) : Prop where
  depth : s.depth = s.units.length
  begins : s.begins = s.units.map Construction.beginName
  bounded : s.calls.Bounded

/-- The same while the parser is at the innermost unit, which has no `begin` block at work. -/
structure Hosted (s : State) : Prop where
  depth : s.depth + 1 = s.units.length
  begins : s.begins = s.units.tail.map Construction.beginName
  bounded : s.calls.Bounded

/-- The same where a `begin` block of a name is about to start. -/
structure Entering (name : String) (s : State) : Prop where
  depth : s.depth = s.units.length
  begins : name :: s.begins = s.units.map Construction.beginName
  bounded : s.calls.Bounded

namespace Restored

variable (h : Restored s t)

include h

theorem length_units : t.units.length = s.units.length := by
  simpa using congrArg List.length h.units

theorem beginNames : t.units.map Construction.beginName = s.units.map Construction.beginName := by
  have hnames := congrArg (List.map fun identity => s!"{identity.2.1}::BEGIN") h.units
  rwa [List.map_map, List.map_map] at hnames

theorem begins : t.begins = s.begins := by
  rw [State.begins, State.begins, h.frames]

theorem limited (hs : s.calls.Bounded) : t.calls.Bounded := by
  intro limit hlimit
  have hlimit' := h.limit ▸ hlimit
  have hpeak := hs limit hlimit'
  have hbounded := h.bounded limit hlimit'
  omega

theorem aligned (hs : Aligned s) : Aligned t :=
  ⟨by rw [h.depth, h.length_units, hs.depth], by rw [h.begins, h.beginNames, hs.begins],
    h.limited hs.bounded⟩

theorem hosted (hs : Hosted s) : Hosted t :=
  ⟨by rw [h.depth, h.length_units, hs.depth], by rw [h.begins, h.outerUnits, hs.begins],
    h.limited hs.bounded⟩

theorem entering {name : String} (hs : Entering name s) : Entering name t :=
  ⟨by rw [h.depth, h.length_units, hs.depth], by rw [h.begins, h.beginNames, hs.begins],
    h.limited hs.bounded⟩

end Restored

/-- A property of states as a guard of runs, where it counts. -/
@[reducible] def guard (K : Comparison) (P : State → Prop)
    (hP : ∀ {s t}, Restored s t → P s → P t) :
    (running K).Guard :=
  ⟨fun s => K.aligned → P s, fun h hs haligned => hP h (hs haligned)⟩

@[reducible] def aligned (K : Comparison) : (running K).Guard := guard K Aligned fun h => h.aligned

@[reducible] def hosted (K : Comparison) : (running K).Guard := guard K Hosted fun h => h.hosted

@[reducible] def entering (K : Comparison) (name : String) : (running K).Guard :=
  guard K (Entering name) fun h => h.entering

end TwoPhase.Interpreter
