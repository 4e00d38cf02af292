import TwoPhase.Proofs.Buffer.Actions

/-!
# Looking ahead

Who looks at the next token makes the buffer remember it.  Every action that moves the cursor or
changes the text behind it drops what is remembered, so what is remembered is what scanning at the
cursor would find, and no later action can tell whether anything is.

Two buffers that differ in what they remember at most (`SameButPeeked`) give the same answers to
every action and stay such a pair.  A buffer and what looking ahead makes of it are one.  So leaving
the looks out of a run leaves out their own steps and changes nothing else.
-/

namespace TwoPhase.Buffer

variable {b c d : Buffer}

/-! ## What is remembered -/

/-- Buffers that differ in what they remember at most. -/
structure SameButPeeked (b c : Buffer) : Prop where
  before : c.before = b.before
  after : c.after = b.after
  cursor : c.cursor = b.cursor
  consumed : c.consumed = b.consumed

namespace SameButPeeked

theorem refl (b : Buffer) : SameButPeeked b b := ⟨rfl, rfl, rfl, rfl⟩

theorem symm (h : SameButPeeked b c) : SameButPeeked c b :=
  ⟨h.before.symm, h.after.symm, h.cursor.symm, h.consumed.symm⟩

theorem trans (h : SameButPeeked b c) (h' : SameButPeeked c d) : SameButPeeked b d :=
  ⟨h'.before.trans h.before, h'.after.trans h.after, h'.cursor.trans h.cursor,
    h'.consumed.trans h.consumed⟩

theorem found (h : SameButPeeked b c) : c.found = b.found := by
  rw [found_eq, found_eq, h.cursor, h.after]

theorem source (h : SameButPeeked b c) : c.source = b.source := by
  rw [Buffer.source, Buffer.source, chars, chars, h.before, h.after]

end SameButPeeked

theorem peek_fst (b : Buffer) : b.peek.1 = b.found.token := by
  unfold peek found
  split <;> rfl

theorem sameButPeeked_peek (b : Buffer) : SameButPeeked b b.peek.2 := by
  unfold peek
  split <;> exact ⟨rfl, rfl, rfl, rfl⟩

theorem SameButPeeked.answer (h : SameButPeeked b c) (action : Action) :
    (c.perform action).1 = (b.perform action).1 := by
  cases action with
  | next => exact congrArg (fun found => Answer.token found.token) h.found
  | peek =>
      simp only [perform]
      rw [peek_fst, peek_fst, h.found]
  | insertAtCursor text =>
      simp only [perform, insertAtCursor]
      rw [h.cursor]
  | insertNextLine text =>
      simp only [perform, insertNextLine]
      rw [h.cursor, h.after]

theorem SameButPeeked.perform (h : SameButPeeked b c) (action : Action) :
    SameButPeeked (b.perform action).2 (c.perform action).2 := by
  cases action with
  | next =>
      have hfound := h.found
      refine ⟨?_, ?_, ?_, ?_⟩ <;> simp only [Buffer.perform, next]
      · rw [hfound, h.before]
      · rw [hfound]
      · rw [hfound]
      · rw [hfound, h.consumed]
  | peek => exact (sameButPeeked_peek b).symm.trans (h.trans (sameButPeeked_peek c))
  | insertAtCursor text =>
      refine ⟨h.before, ?_, h.cursor, h.consumed⟩
      simp only [Buffer.perform, insertAtCursor, withAfter]
      rw [h.before, h.after]
  | insertNextLine text =>
      refine ⟨h.before, ?_, h.cursor, h.consumed⟩
      simp only [Buffer.perform, insertNextLine, withAfter]
      rw [h.after]

/-! ## Courses -/

/-- An action, what it gave, and the cursor after it. -/
structure Step where
  action : Action
  answer : Answer
  cursor : Nat
  deriving DecidableEq, Inhabited

/-- The steps of a run of actions. -/
def course (b : Buffer) : List Action → List Step
  | [] => []
  | action :: actions =>
    ⟨action, (b.perform action).1, (b.perform action).2.cursor⟩ ::
      (b.perform action).2.course actions

theorem SameButPeeked.course (h : SameButPeeked b c) (actions : List Action) :
    c.course actions = b.course actions := by
  induction actions generalizing b c with
  | nil => rfl
  | cons action actions ih =>
      have hnext := h.perform action
      simp only [Buffer.course, h.answer action, hnext.cursor, ih hnext]

theorem SameButPeeked.performAll (h : SameButPeeked b c) (actions : List Action) :
    SameButPeeked (b.performAll actions) (c.performAll actions) := by
  induction actions generalizing b c with
  | nil => exact h
  | cons action actions ih => exact ih (h.perform action)

/-- Actions without the looks at the next token. -/
def unpeeked (actions : List Action) : List Action := actions.filter (· ≠ .peek)

theorem unpeeked_peek (actions : List Action) : unpeeked (.peek :: actions) = unpeeked actions :=
  rfl

theorem unpeeked_cons {action : Action} (h : action ≠ .peek) (actions : List Action) :
    unpeeked (action :: actions) = action :: unpeeked actions :=
  List.filter_cons_of_pos (decide_eq_true h)

theorem course_unpeeked (b : Buffer) (actions : List Action) :
    b.course (unpeeked actions) = (b.course actions).filter (·.action ≠ .peek) := by
  induction actions generalizing b with
  | nil => rfl
  | cons action actions ih =>
      by_cases hpeek : action = .peek
      · subst hpeek
        rw [unpeeked_peek, ← (sameButPeeked_peek b).course, ih]
        rfl
      · rw [unpeeked_cons hpeek, course, course, ih, List.filter_cons_of_pos (by simpa using hpeek)]

theorem performAll_unpeeked (b : Buffer) (actions : List Action) :
    SameButPeeked (b.performAll (unpeeked actions)) (b.performAll actions) := by
  induction actions generalizing b with
  | nil => exact .refl b
  | cons action actions ih =>
      by_cases hpeek : action = .peek
      · subst hpeek
        exact ((sameButPeeked_peek b).performAll _).trans (ih b.peek.2)
      · rw [unpeeked_cons hpeek]
        exact ih (b.perform action).2

/-- Looks at the next token can be left out of a run: its other steps give the same tokens, offsets
and warnings and leave the cursor at the same places, after any number of actions the cursor is
where it would be without looks, and the text is the same in the end. -/
theorem peeks_leave_no_trace (source : String) (actions : List Action) :
    ((ofString source).course actions).filter (·.action ≠ .peek) =
        (ofString source).course (unpeeked actions) ∧
      (∀ k, ((ofString source).performAll (actions.take k)).cursor =
        ((ofString source).performAll (unpeeked (actions.take k))).cursor) ∧
      ((ofString source).performAll actions).source =
        ((ofString source).performAll (unpeeked actions)).source :=
  ⟨(course_unpeeked _ actions).symm, fun k => (performAll_unpeeked _ (actions.take k)).cursor,
    (performAll_unpeeked _ actions).source⟩

end TwoPhase.Buffer
