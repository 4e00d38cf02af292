import TwoPhase.Proofs.Parser.Known
import TwoPhase.Proofs.Interpreter.Within

/-!
# Running a marker

The block of a marker calls the native sub that clears a depth, unless a program gave its name
another meaning.  Where the block ends with a value, the depth has been cleared, and nothing else
has happened that deferral sees.
-/

namespace TwoPhase.Interpreter

open Run (Triple Yields)

variable {α : Type} {s : State} {depth : Nat}

/-! ## The call -/

theorem State.Alike.cleared {s t : State} (h : s.Alike t) (depth : Nat) :
    (s.cleared depth).Alike (t.cleared depth) := by
  simp only [State.Alike, State.seen, Seen.mk.injEq] at h
  obtain ⟨hglobals, hunits, hdepth, hdeferral, hhistory, hrecords⟩ := h
  simp only [State.Alike, State.seen, State.cleared, State.record, hglobals, hunits, hdepth,
    hdeferral, hhistory, hrecords]

/-- A state that deferral sees as another one, while a block is at work that nothing waits for. -/
def Quiet (s t : State) : Prop := s.Alike t ∧ t.exits.head? = some []

theorem clearDepth_yields (depth : Nat) :
    Yields (Quiet s) (clearDepth depth) fun _ t =>
      s.deferral.pending.hasSlot depth = true ∧ Quiet (s.cleared depth) t := by
  intro t ht
  rcases clearDepth_cases depth t with ⟨e, h⟩ | ⟨fn, hslot, h⟩
  · rw [h]
    trivial
  · rw [h]
    have hdeferral : t.deferral = s.deferral := congrArg Seen.deferral ht.1
    rw [hdeferral] at hslot
    exact ⟨by simp [Pending.hasSlot, hslot], ht.1.cleared depth, ht.2⟩

/-- The clearing sub clears the depth that it is given as an integer. -/
theorem callBuiltin_clear (rounds : Nat) (again : Again) (hdepth : depth ≤ Scan.maxValue) :
    callBuiltin rounds again .clear [.int (Int64.ofNat depth)] = (do
      clearDepth depth
      return .nil : Eval Value) := by
  have hvalue : (Int64.ofNat depth).toInt = depth :=
    Int64.toInt_ofNat_of_lt (Nat.lt_of_le_of_lt hdepth (by decide))
  have hnonneg : ¬Int64.ofNat depth < 0 := by
    rw [Int64.lt_iff_toInt_lt, hvalue]
    exact Int.not_lt.2 (Int.natCast_nonneg depth)
  have hone : oneDepth Builtin.clear.name [.int (Int64.ofNat depth)] = pure depth := by
    simp only [oneDepth, oneArg, pure_bind]
    rw [if_neg hnonneg, hvalue]
    rfl
  rw [callBuiltin, hone, pure_bind]

theorem run_int {bound : Nat} {P : State → Prop} (span : Span) (value : Int64) :
    Yields P (run bound (.expr (.int span value))) fun v t => v = .int value ∧ P t := by
  cases bound with
  | zero => exact .cutOff
  | succ bound =>
      rw [run_succ]
      have hvalue : Yields P (exprValue bound (run bound) (.int span value))
          fun v t => v = .int value ∧ P t := fun t ht => ⟨rfl, ht⟩
      unfold perform expr located
      exact Triple.mapError hvalue

theorem run_clear_native {bound : Nat} (hdepth : depth ≤ Scan.maxValue) :
    Yields (Quiet s) (run bound (.native (.builtin .clear) [.int (Int64.ofNat depth)])) fun _ t =>
      s.deferral.pending.hasSlot depth = true ∧ Quiet (s.cleared depth) t := by
  cases bound with
  | zero => exact .cutOff
  | succ bound =>
      rw [run_succ]
      change Yields (Quiet s) (callBuiltin bound (run bound) .clear _) _
      rw [callBuiltin_clear bound (run bound) hdepth]
      exact Triple.bind (clearDepth_yields _) fun _ _ ht => ht

/-- The call in a marker clears the depth, if the name of the clearing sub means what it should. -/
theorem run_clear_expr {bound : Nat} {cell : CellRef} {e : Expr} (he : Parser.Names cell depth e)
    (hcell : s.globals.value? cell = some (.native (.builtin .clear))) :
    Yields (Quiet s) (run bound (.expr e)) fun _ t =>
      s.deferral.pending.hasSlot depth = true ∧ Quiet (s.cleared depth) t := by
  obtain ⟨hdepth, span, span₁, span₂, rfl⟩ := he
  cases bound with
  | zero => exact .cutOff
  | succ bound =>
      rw [run_succ]
      refine Triple.mapError ?_
      -- the callee is looked up before the argument is evaluated
      have hcallee : Yields (Quiet s) (callee (run bound) (.global span₁ cell)) fun f t =>
          f = .native (.builtin .clear) ∧ Quiet s t := by
        intro t ht
        have hglobals : t.globals = s.globals := congrArg Seen.globals ht.1
        simp only [callee, Run.bind_apply, Run.get_apply, hglobals, hcell]
        exact ⟨rfl, ht⟩
      have harg : Yields (Quiet s) (exprs (run bound) #[] [.int span₂ (Int64.ofNat depth)])
          fun values t => values = #[.int (Int64.ofNat depth)] ∧ Quiet s t := by
        refine Triple.bind (run_int _ _) fun v => .assume ?_
        rintro rfl
        exact fun t ht => ⟨rfl, ht⟩
      refine Triple.bind hcallee fun f => .assume ?_
      rintro rfl
      refine Triple.bind harg fun values => .assume ?_
      rintro rfl
      exact run_clear_native hdepth

/-! ## The block -/

/-- A block that fails does not end with a value, whatever waited for its exit. -/
theorem runExits_error {again : Again} (span : Span) (e : EvalError)
    (blocks : List DeferredBlock) :
    Yields (fun _ => True) (runExits again span (.error e) blocks) fun _ _ => False := by
  induction blocks with
  | nil => exact fun _ _ => trivial
  | cons block blocks ih =>
      refine Triple.bind (Q := fun _ _ => True) (fun _ _ => trivial) fun _ => ?_
      refine Triple.bind (Q := fun _ _ => True) ?_ fun ended => ?_
      · intro t _
        unfold Run.attempt
        cases runDeferred again block span t <;> trivial
      · cases ended with
        | ok value => exact ih
        | error e' => exact ih

/-- A block of one call that nothing waits for. -/
theorem run_block {bound : Nat} {span : Span} {e : Expr} {P Q : State → Prop}
    (hP : Stable P) (hQ : Stable Q)
    (hcall : ∀ bound, Yields (fun t => P t ∧ t.exits.head? = some []) (run bound (.expr e))
      fun _ t => Q t ∧ t.exits.head? = some []) :
    Yields P (run bound (.block (.mk span [.expr e]))) fun _ => Q := by
  cases bound with
  | zero => exact .cutOff
  | succ bound =>
      rw [run_succ]
      have hbody : Yields (fun t => P t ∧ t.exits.head? = some [])
          (stmts bound (run bound) .nil [.expr e]) fun _ t => Q t ∧ t.exits.head? = some [] := by
        refine Triple.bind (Q := fun flow t => (∃ v, flow = .normal v) ∧ Q t ∧
          t.exits.head? = some []) ?_ fun flow => .assume ?_
        · exact Triple.bind (hcall bound) fun v t ht => ⟨⟨v, rfl⟩, ht⟩
        · rintro ⟨v, rfl⟩
          exact fun t ht => ht
      refine Triple.bind (Q := fun _ t => P t ∧ t.exits.head? = some []) ?_ fun _ => ?_
      · exact fun t ht => ⟨hP.alike ht rfl, rfl⟩
      refine Triple.bind (Q := fun (result : Except EvalError Flow) t => result.isOk = true →
        Q t ∧ t.exits.head? = some []) (Triple.attempt (hbody.weaken (fun _ => id)
          (fun _ _ ht _ => ht) fun _ _ _ hok => by cases hok)) fun result => ?_
      -- a block that failed ends with an error, so nothing is claimed of it
      cases result with
      | error e =>
          exact Triple.bind (Q := fun _ _ => True) (fun _ _ => trivial) fun blocks =>
            (runExits_error span e blocks).weaken (fun _ => id) (fun _ _ h => h.elim)
              (fun _ _ => id)
      | ok flow =>
          refine Triple.bind (Q := fun blocks t => blocks = [] ∧ Q t) ?_ fun blocks => .assume ?_
          · -- no block waits for this one to end, so none runs here
            intro t ht
            obtain ⟨ht, hexits⟩ := ht rfl
            have hnone : t.exits.headD [] = [] := by simp [List.headD_eq_head?_getD, hexits]
            exact ⟨hnone, hQ.alike ht rfl⟩
          · rintro rfl
            exact fun t ht => ht

/-- The block of a marker clears its depth, and does nothing else that deferral sees. -/
theorem run_clear {bound : Nat} {cell : CellRef} {span : Span} {e : Expr}
    (he : Parser.Names cell depth e)
    (hcell : s.globals.value? cell = some (.native (.builtin .clear))) :
    Yields s.Alike (run bound (.block (.mk span [.expr e]))) fun _ t =>
      s.deferral.pending.hasSlot depth = true ∧ (s.cleared depth).Alike t := by
  have hstable : ∀ u : State, Stable u.Alike := fun u => ⟨fun h h' => h'.trans h⟩
  refine run_block (hstable s) ⟨fun h h' => ⟨h.1, (hstable _).alike h.2 h'⟩⟩ fun bound => ?_
  exact (run_clear_expr he hcell).weaken (fun _ => id) (fun _ t ht => ⟨⟨ht.1, ht.2.1⟩, ht.2.2⟩)
    (fun _ _ => id)

/-! ## The marker -/

/-- Running the block of a marker leaves the buffer to the parser as it was. -/
theorem runBegin_clear {cell : CellRef} {e : Expr} (he : Parser.Names cell depth e)
    (hcell : s.globals.value? cell = some (.native (.builtin .clear))) (bound left : Nat)
    (buffer : Buffer) (span span' : Span) :
    Yields (· = (buffer, s)) ((host bound (run bound)).runBegin left (.mk span [.expr e]) span')
      fun _ p => s.deferral.pending.hasSlot depth = true ∧ p.1 = buffer ∧
        ((s.withBuffer buffer).cleared depth).Alike p.2 := by
  let start : State := { s.withBuffer buffer with
    depth := s.depth + 1, nesting := s.nesting + (bound - left) }
  have hstable : ∀ u : State, Stable u.Alike := fun u => ⟨fun h h' => h'.trans h⟩
  refine runBegin_triple
    (Q := fun b u => s.deferral.pending.hasSlot depth = true ∧ b = buffer ∧
      ((s.withBuffer buffer).cleared depth).Alike u)
    (E := fun _ _ => True) (hstable start) ⟨fun h h' => ⟨h.1, (hstable _).alike h.2 h'⟩⟩
    ⟨fun _ _ => trivial⟩ (fun _ _ => trivial) (run_clear he hcell) rfl ?_ (fun _ _ => trivial)
  rintro u ⟨hslot, hu⟩
  simp only [State.Alike, State.seen, Seen.mk.injEq] at hu
  obtain ⟨hglobals, hunits, hdepth, hdeferral, hhistory, hrecords⟩ := hu
  refine ⟨hslot, ?_, ?_⟩
  · -- the marker splices nothing in, so the parser gets the buffer back that it handed over
    have hhead : u.units = (s.withBuffer buffer).units := hunits
    rw [State.bufferOr, hhead, State.withBuffer]
    cases s.units <;> rfl
  · simp only [State.Alike, State.seen, Seen.mk.injEq]
    refine ⟨hglobals, hunits, ?_, hdeferral, hhistory, hrecords⟩
    rw [hdepth]
    exact Nat.add_sub_cancel _ 1

end TwoPhase.Interpreter
