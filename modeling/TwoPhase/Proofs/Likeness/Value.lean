import TwoPhase.Arithmetic
import TwoPhase.Interpreter.State
import TwoPhase.Proofs.Likeness.Tree

/-!
# Values and errors up to spans

Values are alike if subs in them have the same number and trees that are alike.  No operator can
tell values that are alike, since subs are compared by number and shown by kind.

Errors hold spans and backtraces too, but neither is part of a message.  An error without them is
unplaced, and errors are alike if the unplaced ones are equal.
-/

namespace TwoPhase

variable {K : Comparison}

/-! ## Values -/

/-- The same value, up to spans in subs. -/
inductive Value.Like (K : Comparison) : Value → Value → Prop where
  | same (value : Value) : Value.Like K value value
  | list {as bs : List Value} (h : as.Forall₂ (Value.Like K) bs) :
      Value.Like K (.list ⟨as⟩) (.list ⟨bs⟩)
  | sub (id : Nat) (name : String) {f g : Function} (captured : Option ScopeId)
      (unit : Option UnitId) (h : f.Like K g) :
      Value.Like K (.sub ⟨id, name, f, captured, unit⟩) (.sub ⟨id, name, g, captured, unit⟩)

mutual

theorem Value.Like.eq (hexact : K.exact) : ∀ {v w : Value}, v.Like K w → v = w
  | _, _, .same _ => rfl
  | _, _, .list h => by rw [valuesLike_eq hexact h]
  | _, _, .sub _ _ _ _ h => by rw [h.eq hexact]

theorem valuesLike_eq (hexact : K.exact) : ∀ {vs ws : List Value},
    vs.Forall₂ (Value.Like K) ws → vs = ws
  | _, _, .nil => rfl
  | _, _, .cons h hs => by rw [Value.Like.eq hexact h, valuesLike_eq hexact hs]

end

instance : HasLike Value := ⟨Value.Like, fun _ => .same⟩

namespace Value.Like

variable {v w v' w' : Value} {vs ws : List Value}

theorem typeName (h : v.Like K w) : v.typeName = w.typeName := by cases h <;> rfl

theorem isTruthy (h : v.Like K w) : v.isTruthy = w.isTruthy := by cases h <;> rfl

/-- Subs that are alike differ in their trees only. -/
theorem sub_inv {a b : Sub} (h : (Value.sub a).Like K (.sub b)) :
    a.name = b.name ∧ a.function.Like K b.function ∧ a.captured = b.captured ∧ a.unit = b.unit := by
  cases h with
  | same => exact ⟨rfl, .refl _, rfl, rfl⟩
  | sub _ _ _ _ hfunction => exact ⟨rfl, hfunction, rfl, rfl⟩

theorem isCallable (h : v.Like K w) : v.isCallable = w.isCallable := by cases h <;> rfl

mutual

theorem displayOnto : ∀ {v w : Value}, v.Like K w → ∀ text : String,
    v.displayOnto text = w.displayOnto text
  | _, _, .same _, _ => rfl
  | _, _, .list h, text => by
      simp only [Value.displayOnto, displayItemsOnto h (text ++ "[")]
  | _, _, .sub .., _ => rfl

theorem displayItemsOnto : ∀ {vs ws : List Value}, vs.Forall₂ (Value.Like K) ws →
    ∀ text : String, Value.displayItemsOnto text vs = Value.displayItemsOnto text ws
  | _, _, .nil, _ => rfl
  | _, _, .cons h .nil, text => by simp only [Value.displayItemsOnto, displayOnto h text]
  | _, _, .cons h (.cons h' hs), text => by
      simp only [Value.displayItemsOnto, displayOnto h text, displayItemsOnto (.cons h' hs)]

end

theorem display (h : v.Like K w) : v.display = w.display := h.displayOnto ""

theorem concat (h : vs.Forall₂ (Value.Like K) ws) : Value.concat vs = Value.concat ws := by
  rw [Value.concat_eq_join, Value.concat_eq_join, map_eq_of_forall₂ h display]

mutual

/-- Comparing a value with others cannot tell values that are alike. -/
theorem same_left : ∀ {v w : Value}, v.Like K w → ∀ u : Value, v.same u = w.same u
  | _, _, .same _, _ => rfl
  | _, _, .list h, u => by cases u <;> simp only [Value.same, sameAll_left h]
  | _, _, .sub .., u => by cases u <;> simp only [Value.same]

theorem sameAll_left : ∀ {vs ws : List Value}, vs.Forall₂ (Value.Like K) ws →
    ∀ us : List Value, Value.sameAll vs us = Value.sameAll ws us
  | _, _, .nil, _ => rfl
  | _, _, .cons h hs, us => by
      cases us <;> simp only [Value.sameAll, same_left h, sameAll_left hs]

end

mutual

theorem same_comm : ∀ v w : Value, v.same w = w.same v
  | .list ⟨as⟩, w => by cases w <;> simp only [Value.same, sameAll_comm as]
  | .nil, w => by cases w <;> rfl
  | .bool a, w => by cases w <;> simp only [Value.same, Bool.beq_comm]
  | .int a, w => by cases w <;> simp only [Value.same, BEq.comm]
  | .str a, w => by cases w <;> simp only [Value.same, BEq.comm]
  | .sub a, w => by cases w <;> simp only [Value.same, BEq.comm]
  | .native a, w => by cases w <;> simp only [Value.same, BEq.comm]
  | .dispatch a, w => by cases w <;> simp only [Value.same, BEq.comm]

theorem sameAll_comm : ∀ vs ws : List Value, Value.sameAll vs ws = Value.sameAll ws vs
  | [], ws => by cases ws <;> rfl
  | v :: vs, ws => by cases ws <;> simp only [Value.sameAll, same_comm v, sameAll_comm vs]

end

theorem same_eq (h : v.Like K w) (h' : v'.Like K w') : v.same v' = w.same w' := by
  rw [h.same_left, same_comm, h'.same_left, same_comm]

/-! ### Operators -/

theorem unary (op : UnaryOp) (h : v.Like K w) : op.apply v = op.apply w := by
  cases h with
  | same => rfl
  | list h => cases op <;> rfl
  | sub => cases op <;> rfl

theorem mismatch (op : BinaryOp) (h : v.Like K w) (h' : v'.Like K w') :
    op.mismatch v v' = op.mismatch w w' := by
  rw [BinaryOp.mismatch, BinaryOp.mismatch, h.typeName, h'.typeName]

/-- An operator looks into numbers and texts only, so it cannot tell left sides that are alike. -/
theorem binary_left (op : BinaryOp) (h : v.Like K w) (u : Value) : op.apply v u = op.apply w u := by
  have hsame := h.same_left u
  have hdisplay := h.display
  have hmismatch := mismatch op h (.same u)
  cases h with
  | same => rfl
  | list h =>
      unfold BinaryOp.apply
      split
      · rw [hsame]
      · rw [hsame]
      · cases u <;> simp only [hdisplay, hmismatch]
  | sub =>
      unfold BinaryOp.apply
      split
      · rw [hsame]
      · rw [hsame]
      · cases u <;> simp only [hdisplay, hmismatch]

theorem binary_right (op : BinaryOp) (u : Value) (h : v.Like K w) :
    op.apply u v = op.apply u w := by
  have hsame := same_eq (.same u) h
  have hdisplay := h.displayOnto
  have hmismatch := mismatch op (.same u) h
  cases h with
  | same => rfl
  | list h =>
      unfold BinaryOp.apply
      split
      · rw [hsame]
      · rw [hsame]
      · cases u <;> simp only [hdisplay, hmismatch]
  | sub =>
      unfold BinaryOp.apply
      split
      · rw [hsame]
      · rw [hsame]
      · cases u <;> simp only [hdisplay, hmismatch]

theorem binary (op : BinaryOp) (h : v.Like K w) (h' : v'.Like K w') :
    op.apply v v' = op.apply w w' :=
  (h.binary_left op v').trans (binary_right op w h')

end Value.Like

/-! ## Blocks put off -/

instance : HasLike ScopeId := .ofEq
instance : HasLike UnitId := .ofEq
instance : HasLike DispatchFn := .ofEq

/-- The same block, up to spans. -/
structure DeferredBlock.Like (K : Comparison) (b c : DeferredBlock) : Prop where
  callable : b.callable.Like K c.callable
  label : b.label = c.label

theorem DeferredBlock.Like.refl (b : DeferredBlock) : b.Like K b := ⟨.same _, rfl⟩

theorem DeferredBlock.Like.eq {b c : DeferredBlock} (hexact : K.exact) (h : b.Like K c) :
    b = c := by
  cases b
  cases c
  exact congr (congrArg _ (h.callable.eq hexact)) h.label

instance : HasLike DeferredBlock := ⟨DeferredBlock.Like, fun _ => .refl⟩

instance : SpansOnly DeferredBlock := ⟨fun hexact => DeferredBlock.Like.eq hexact⟩

/-- The same hook, up to spans. -/
inductive Hook.Like (K : Comparison) : Hook DeferredBlock → Hook DeferredBlock → Prop where
  | atRuntime {b c : DeferredBlock} (h : b.Like K c) : Hook.Like K (.atRuntime b) (.atRuntime c)
  | afterRuntime {b c : DeferredBlock} (h : b.Like K c) :
      Hook.Like K (.afterRuntime b) (.afterRuntime c)

theorem Hook.Like.refl : ∀ hook : Hook DeferredBlock, hook.Like K hook
  | .atRuntime b => .atRuntime (.refl b)
  | .afterRuntime b => .afterRuntime (.refl b)

theorem Hook.Like.eq (hexact : K.exact) : ∀ {hook hook' : Hook DeferredBlock},
    hook.Like K hook' → hook = hook'
  | _, _, .atRuntime h => congrArg _ (h.eq hexact)
  | _, _, .afterRuntime h => congrArg _ (h.eq hexact)

instance : HasLike (Hook DeferredBlock) := ⟨Hook.Like, fun _ => .refl⟩

instance : SpansOnly (Hook DeferredBlock) := ⟨fun hexact => Hook.Like.eq hexact⟩

/-! ## Errors -/

/-- A syntax error without the places it mentions. -/
def ParseFault.unplaced : ParseFault → ParseFault
  | unclosed delimiter _ => unclosed delimiter default
  | fault => fault

mutual

/-- A fault without spans and backtraces. -/
def Fault.unplaced : Fault → Fault
  | .construction error => .construction error.unplaced
  | fault => fault

/-- An error of construction without spans and backtraces. -/
def CompileError.unplaced : CompileError → CompileError
  | .parse ⟨fault, _⟩ unit => .parse ⟨fault.unplaced, default⟩ unit
  | .failedBegin _ ⟨kind, _, inner, _, _⟩ unit =>
    .failedBegin default ⟨kind.unplaced, none, inner, none, []⟩ unit

end

theorem ParseFault.message_unplaced (fault : ParseFault) :
    fault.unplaced.message = fault.message := by
  cases fault <;> rfl

mutual

/-- Messages say nothing of places. -/
theorem Fault.message_unplaced : ∀ fault : Fault, fault.unplaced.message = fault.message
  | .construction error => CompileError.message_unplaced error
  | .died _ | .undefinedVariable _ | .undefinedSub _ | .binaryType .. | .unaryType ..
  | .argumentType .. | .arity .. | .notCallable _ | .integerOverflow _ | .divisionByZero
  | .callDepth _ | .dispatchAsValue | .hook _ | .unknownModule _ | .unreadableModule .. => rfl

theorem CompileError.message_unplaced : ∀ error : CompileError,
    error.unplaced.message = error.message
  | .parse ⟨fault, _⟩ _ => fault.message_unplaced
  | .failedBegin _ ⟨kind, _, _, _, _⟩ _ =>
    congrArg ("begin block failed; construction aborted: " ++ ·) (Fault.message_unplaced kind)

end

/-- The same error, up to spans and backtraces. -/
structure EvalError.Like (K : Comparison) (e f : EvalError) : Prop where
  kind : e.kind.unplaced = f.kind.unplaced
  unit : e.unit = f.unit
  eq : K.exact → K.frames → e = f

/-- The same error of construction, up to spans and backtraces. -/
structure CompileError.Like (K : Comparison) (e f : CompileError) : Prop where
  unplaced : e.unplaced = f.unplaced
  eq : K.exact → K.frames → e = f

instance : HasLike EvalError := ⟨EvalError.Like, fun _ _ => ⟨rfl, rfl, fun _ _ => rfl⟩⟩

instance : HasLike CompileError := ⟨CompileError.Like, fun _ _ => ⟨rfl, fun _ _ => rfl⟩⟩

theorem EvalError.Like.message {e f : EvalError} (h : EvalError.Like K e f) :
    e.kind.message = f.kind.message := by
  rw [← e.kind.message_unplaced, h.kind, f.kind.message_unplaced]

/-- A fault that was just raised is placed nowhere. -/
theorem EvalError.Like.raised {k l : Fault} {frames frames' : List Frame}
    (h : k.unplaced = l.unplaced)
    (heq : K.exact → K.frames → k = l ∧ frames = frames') :
    EvalError.Like K (.amid frames k) (.amid frames' l) := by
  refine ⟨h, rfl, fun hexact hframes => ?_⟩
  obtain ⟨rfl, rfl⟩ := heq hexact hframes
  rfl

theorem CompileError.unplaced_inUnit (id : UnitId) (e : CompileError) :
    (e.inUnit id).unplaced = e.unplaced.inUnit id := by
  cases e <;> rfl

theorem CompileError.Like.inUnit {e f : CompileError} (h : CompileError.Like K e f) (id : UnitId) :
    CompileError.Like K (e.inUnit id) (f.inUnit id) := by
  refine ⟨?_, fun hexact hframes => by rw [h.eq hexact hframes]⟩
  rw [unplaced_inUnit, unplaced_inUnit, h.unplaced]

/-- What a failing block makes of the construction around it. -/
theorem CompileError.Like.failedBegin {e f : EvalError} {p q : Span} (h : EvalError.Like K e f)
    (hspan : p.Like K q) : CompileError.Like K (.failedBegin p e none) (.failedBegin q f none) := by
  obtain ⟨kind, span, unit, backtrace, frames⟩ := e
  obtain ⟨kind', span', unit', backtrace', frames'⟩ := f
  obtain ⟨hkind, hunit, heq⟩ := h
  refine ⟨?_, fun hexact hframes => by rw [hspan hexact, heq hexact hframes]⟩
  change CompileError.failedBegin _ ⟨kind.unplaced, none, unit, none, []⟩ none
    = CompileError.failedBegin _ ⟨kind'.unplaced, none, unit', none, []⟩ none
  rw [show kind.unplaced = kind'.unplaced from hkind, show unit = unit' from hunit]

theorem EvalError.Like.construction {e f : CompileError} (h : CompileError.Like K e f)
    {frames frames' : List Frame} (heq : K.exact → K.frames → frames = frames') :
    EvalError.Like K (.amid frames (.construction e)) (.amid frames' (.construction f)) :=
  .raised (congrArg Fault.construction h.unplaced)
    fun hexact hframes => ⟨congrArg _ (h.eq hexact hframes), heq hexact hframes⟩

theorem EvalError.Like.orLocation {e f : EvalError} {p q : Span} (h : EvalError.Like K e f)
    (hspan : p.Like K q) (unit : Option UnitId) :
    EvalError.Like K (e.orLocation p unit) (f.orLocation q unit) := by
  refine ⟨h.kind, ?_, fun hexact hframes => by rw [h.eq hexact hframes, hspan hexact]⟩
  simp only [Raised.orLocation, h.unit]

end TwoPhase
