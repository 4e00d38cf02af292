import TwoPhase.Proofs.Likeness.Running

/-!
# Entering and leaving side by side

Code in a scope, in a frame, or of another unit follows other such code if it does so inside.
-/

namespace TwoPhase.Interpreter

open Run (Sim)

variable {K : Comparison} {α : Type} [HasLike α] {s t : State}

/-- Code that follows other code, where depth and units move together. -/
abbrev Alike (K : Comparison) (body body' : Eval α) : Prop := Sim (running K) (aligned K) body body'

/-! ## Leaving restores -/

namespace Restored

theorem inScope {scope : Scope} {hparent}
    (h : Restored { s with env := s.env.enter scope hparent } t) :
    Restored s { t with env := t.env.pop } :=
  { h with env := @Environment.Restored.pop s.env t.env scope hparent h.env }

theorem inCodeOf {unit : Option UnitId} (h : Restored { s with currentUnit := unit } t) :
    Restored s { t with currentUnit := s.currentUnit } :=
  { h with currentUnit := rfl }

theorem inFrame {frame : Frame}
    (hfree : ∀ limit, s.calls.limit = some limit → s.calls.depth < limit)
    (h : Restored { s with calls := s.calls.pushed frame } t) :
    Restored s { t with calls := t.calls.pop } := by
  have hpeak : max s.calls.peak (s.calls.depth + 1) ≤ t.calls.peak := h.peak
  refine { h with frames := ?_, limit := h.limit, peak := ?_, bounded := ?_ }
  · have hframes : t.calls.frames = frame :: s.calls.frames := h.frames
    simp [CallStack.pop, hframes]
  · exact Nat.le_trans (Nat.le_max_left _ _) hpeak
  · intro limit hlimit
    have hbounded : t.calls.peak ≤ max (max s.calls.peak (s.calls.depth + 1)) limit :=
      h.bounded limit hlimit
    have hdepth := hfree limit hlimit
    change t.calls.peak ≤ _
    omega

end Restored

namespace Alike

variable {A B : (running K).Guard} {body body' : Eval α}

/-! ## Faults -/

theorem raised (h : s.Like K t) {fault fault' : Fault} (hfault : fault.unplaced = fault'.unplaced)
    (heq : K.exact → K.frames → fault = fault') :
    EvalError.Like K (s.raised fault) (t.raised fault') :=
  .raised hfault fun hexact hframes =>
    ⟨heq hexact hframes, congrArg CallStack.frames (h.calls.eq hexact hframes)⟩

theorem raise {fault fault' : Fault} (hfault : fault.unplaced = fault'.unplaced)
    (heq : K.exact → K.frames → fault = fault') :
    Sim (running K) A (raise fault : Eval α) (raise fault') := by
  refine ⟨fun s u hu => hu, fun {s t} hs _ => .inr ⟨_, t, rfl, ?_, hs⟩⟩
  exact raised hs.like hfault heq

theorem raise_self (fault : Fault) :
    Sim (running K) A (Interpreter.raise fault : Eval α) (Interpreter.raise fault) :=
  raise rfl fun _ _ => rfl

theorem locate (h : s.Like K t) {p q : Span} (hspan : p.Like K q) {e f : EvalError}
    (he : EvalError.Like K e f) : EvalError.Like K (s.locate p e) (t.locate q f) := by
  rw [State.locate, State.locate, h.currentUnit]
  exact he.orLocation hspan _

theorem traced (h : Sim (running K) A body body') :
    Sim (running K) A (Interpreter.traced body) (Interpreter.traced body') :=
  h.mapError fun hs he => hs.calls.attachBacktrace he

theorem located {p q : Span} (hspan : p.Like K q) (h : Sim (running K) A body body') :
    Sim (running K) A (Interpreter.located p body) (Interpreter.located q body') :=
  h.mapError fun hs he => hs.calls.attachBacktrace (locate hs hspan he)

/-! ## Scopes -/

theorem inBlockScope (h : Alike K body body') :
    Alike K (Interpreter.inBlockScope body) (Interpreter.inBlockScope body') := by
  refine Sim.between h (fun h => h.inScope) (fun h => h) (fun {s t} h hA => ⟨?_, fun ha => ?_⟩)
    fun {s t} h => ?_
  · exact { h with like := { h.like with env := h.like.env.push } }
  · exact { hA ha with }
  · exact { h with like := { h.like with env := h.like.env.pop } }

theorem inDetachedScope (parent : Option ScopeId) (h : Alike K body body') :
    Alike K (Interpreter.inDetachedScope parent body)
      (Interpreter.inDetachedScope parent body') := by
  refine Sim.between h (fun h => h.inScope) (fun h => h) (fun {s t} h hA => ⟨?_, fun ha => ?_⟩)
    fun {s t} h => ?_
  · exact { h with like := { h.like with env := h.like.env.pushDetached parent } }
  · exact { hA ha with }
  · exact { h with like := { h.like with env := h.like.env.pop } }

theorem freshId : Alike K Interpreter.freshId Interpreter.freshId := by
  refine Sim.modifyGet (fun s => { Restored.refl s with }) fun {s t} h _ => .inr ⟨h.like.nextId, ?_⟩
  exact { h with like := { h.like with nextId := congrArg (· + 1) h.like.nextId } }

theorem captureScope : Alike K Interpreter.captureScope Interpreter.captureScope := by
  refine Sim.modifyGet (fun s => { Restored.refl s with env := .capture s.env }) fun {s t} h _ =>
    .inr ⟨h.like.env.capture.1, ?_⟩
  exact { h with like := { h.like with env := h.like.env.capture.2 } }

/-! ## Units and frames

A `begin` block runs in code of its unit and in a frame of its own.  The guard on what is inside the
frame is then not the one on what is around it. -/

theorem inCodeOf (unit : Option UnitId)
    (hA : ∀ (s : State) (unit : Option UnitId), A.Holds s → A.Holds { s with currentUnit := unit })
    (h : Sim (running K) A body body') :
    Sim (running K) A (Interpreter.inCodeOf unit body) (Interpreter.inCodeOf unit body') := by
  cases unit with
  | none => exact h
  | some id =>
      refine ⟨fun s u hu => ?_, fun {s t} hs hs' => ?_⟩
      · exact h.left_moves (fun hv => hu.trans hv.inCodeOf) { u with currentUnit := some id } rfl
      · have hentered : Matched K { s with currentUnit := some id }
            { t with currentUnit := some id } :=
              { hs with like := { hs.like with currentUnit := rfl } }
        exact h.left hentered (hA s (some id) hs') (fun h => h) fun {u v} hu =>
          { hu with like := { hu.like with currentUnit := hs.like.currentUnit } }

/-- A frame is pushed on both sides or on neither. -/
theorem withFrame {frame frame' : Frame} (hframe : K.frames → frame.Like K frame')
    (hAB : ∀ s : State, (∀ limit, s.calls.limit = some limit → s.calls.depth < limit) → A.Holds s →
      B.Holds { s with calls := s.calls.pushed frame })
    (h : Sim (running K) B body body') :
    Sim (running K) A (Interpreter.withFrame frame body) (Interpreter.withFrame frame' body') := by
  refine ⟨fun s u hu => ?_, fun {s t} hs hs' => ?_⟩
  · simp only [Interpreter.withFrame, Run.bind_apply, pushFrame]
    rcases u.calls.push_cases frame with ⟨limit, _, _, hpush⟩ | ⟨hfree, hpush⟩ <;> rw [hpush]
    · exact hu
    · exact h.left_moves (fun hv => hu.trans (hv.inFrame hfree)) _ rfl
  · have hpushed := hs.like.calls.push hs.unlimited hframe
    simp only [Interpreter.withFrame, Run.bind_apply, pushFrame]
    rcases s.calls.push_cases frame with ⟨limit, _, _, hpush⟩ | ⟨hfree, hpush⟩ <;>
      rcases t.calls.push_cases frame' with ⟨limit', _, _, hpush'⟩ | ⟨_, hpush'⟩ <;>
      rw [hpush, hpush'] at hpushed ⊢
    · obtain rfl : limit = limit' := Fault.callDepth.inj hpushed
      exact .inr ⟨_, t, rfl, raised hs.like rfl fun _ _ => rfl, hs⟩
    · exact hpushed.elim
    · exact hpushed.elim
    · refine h.left { hs with like := { hs.like with calls := hpushed } } (hAB s hfree hs')
        (fun h => h) ?_
      exact fun hu => { hu with like := { hu.like with calls := hu.like.calls.pop } }

/-- No other frame is one of a `begin` block. -/
theorem aligned_pushed {frame : Frame} (hkind : frame.kind ≠ .beginBlock) (s : State)
    (hfree : ∀ limit, s.calls.limit = some limit → s.calls.depth < limit)
    (hs : (aligned K).Holds s) : (aligned K).Holds { s with calls := s.calls.pushed frame } := by
  refine fun ha => ⟨(hs ha).depth, ?_, (hs ha).bounded.pushed hfree frame⟩
  rw [← (hs ha).begins]
  simp [State.begins, CallStack.pushed, hkind]

/-- Code in a frame of its own that is not one of a `begin` block. -/
theorem inFrame {frame frame' : Frame} (hframe : K.frames → frame.Like K frame')
    (hkind : frame.kind ≠ .beginBlock) (parent : Option ScopeId) (h : Alike K body body') :
    Alike K (Interpreter.inFrame frame parent body) (Interpreter.inFrame frame' parent body') :=
  withFrame hframe (aligned_pushed hkind) (traced (inDetachedScope parent h))

theorem inCodeOf_aligned (unit : Option UnitId) (h : Alike K body body') :
    Alike K (Interpreter.inCodeOf unit body) (Interpreter.inCodeOf unit body') :=
  inCodeOf unit (fun _ _ hs ha => { hs ha with }) h

end Alike

end TwoPhase.Interpreter
