import TwoPhase.Proofs.Splice

/-!
# What is done to a buffer

The parser takes tokens from a buffer, or looks at the next one, and the program under construction
splices text in.  No other action changes a buffer, so what holds of all runs of these actions holds
of every buffer of a unit.

Taking or looking at a token leaves the text alone.  A splice puts one piece of text in (`Gains`),
behind a line break where there is no next line to put it on.
-/

namespace TwoPhase.Buffer

inductive Action where
  | next
  | peek
  | insertAtCursor (text : String)
  | insertNextLine (text : String)
  deriving DecidableEq, Inhabited

/-- What an action gives. -/
inductive Answer where
  | token (token : Token)
  | spliced (injection : Injection)
  deriving DecidableEq, Inhabited

def perform (b : Buffer) (action : Action) : Answer × Buffer :=
  match action with
  | .next => (.token b.next.1, b.next.2)
  | .peek => (.token b.peek.1, b.peek.2)
  | .insertAtCursor text => (.spliced (b.insertAtCursor text).1, (b.insertAtCursor text).2)
  | .insertNextLine text => (.spliced (b.insertNextLine text).1, (b.insertNextLine text).2)

/-- The buffer after some actions. -/
def performAll (b : Buffer) : List Action → Buffer
  | [] => b
  | action :: actions => (b.perform action).2.performAll actions

/-- What all actions keep, every run keeps. -/
theorem performAll_induction {I : Buffer → Prop} {actions : List Action} {b : Buffer} (h : I b)
    (hstep : ∀ b, ∀ action ∈ actions, I b → I (b.perform action).2) : I (b.performAll actions) := by
  induction actions generalizing b with
  | nil => exact h
  | cons action actions ih =>
      exact ih (hstep b action List.mem_cons_self h)
        fun c other hother => hstep c other (List.mem_cons_of_mem _ hother)

theorem chars_peek (b : Buffer) : b.peek.2.chars = b.chars := by
  unfold peek
  split <;> rfl

theorem chars_of_token {b : Buffer} {action : Action} {token : Token}
    (h : (b.perform action).1 = .token token) : (b.perform action).2.chars = b.chars := by
  cases action with
  | next => exact b.chars_next
  | peek => exact b.chars_peek
  | insertAtCursor | insertNextLine => cases h

/-! ## Splices -/

/-- A splice that makes `c` of `b` puts `piece` in between `front` and `back`, at an offset.  If
there is no next line to put it on, a line break goes in first. -/
structure Gains (b c : Buffer) (offset : Nat) (front breaks piece back : List Char) : Prop where
  old : b.chars = front ++ back
  new : c.chars = front ++ breaks ++ piece ++ back
  lineless : breaks = [] ∨ breaks = ['\n'] ∧ back = []
  offset : offset = Text.byteLength (front ++ breaks)

/-- Padding adds nothing but spaces to a text. -/
theorem mem_padded {left right : Option Char} {text : List Char} {c : Char}
    (h : c ∈ padded left text right) : c = ' ' ∨ c ∈ text := by
  have hspace : ∀ {fused : Bool}, c ∈ (if fused then [' '] else []) → c = ' ' := by
    intro fused hmem
    cases fused with
    | true => exact List.mem_singleton.1 hmem
    | false => cases hmem
  simp only [padded, List.mem_append] at h
  obtain (hfront | htext) | hback := h
  · exact .inl (hspace hfront)
  · exact .inr htext
  · exact .inl (hspace hback)

theorem gains_insertAtCursor (b : Buffer) (text : String) :
    Gains b (b.insertAtCursor text).2 (b.insertAtCursor text).1.offset b.before.reverse []
      (padded b.before.head? text.toList b.after.head?) b.after where
  old := rfl
  new := by simp [insertAtCursor, withAfter, chars]
  lineless := .inl rfl
  offset := by rw [List.append_nil, Text.byteLength_reverse]; exact b.cursor_eq

theorem gains_insertNextLine (b : Buffer) (text : String) : ∃ front breaks back,
    Gains b (b.insertNextLine text).2 (b.insertNextLine text).1.offset front breaks
      (padded (some '\n') text.toList back.head?) back := by
  obtain ⟨line, following, hline, hold, hnew⟩ := insert_line_after b text
  have hoffset : (b.insertNextLine text).1.offset = b.cursor + Text.byteLength line + 1 := by
    simp only [insertNextLine, takeWhile_line hline hold]
  have hchars : (b.insertNextLine text).2.chars = b.before.reverse ++ (line ++ '\n' ::
      (padded (some '\n') text.toList following.head? ++ following)) :=
    congrArg (b.before.reverse ++ ·) hnew
  have hcursor : Text.byteLength b.before.reverse = b.cursor := by
    rw [Text.byteLength_reverse, b.cursor_eq]
  rcases hold with ⟨hold, rfl⟩ | hold
  · refine ⟨b.before.reverse ++ line, ['\n'], [], ?_, ?_, .inr ⟨rfl, rfl⟩, ?_⟩
    · rw [chars, hold, List.append_nil]
    · rw [hchars]
      simp
    · simp only [hoffset, Text.byteLength_append, hcursor]
      rfl
  · refine ⟨b.before.reverse ++ line ++ ['\n'], [], following, ?_, ?_, .inl rfl, ?_⟩
    · rw [chars, hold]
      simp
    · rw [hchars]
      simp
    · simp only [hoffset, Text.byteLength_append, hcursor]
      rfl

namespace Action

/-- An action that splices in no line break. -/
def OneLine : Action → Prop
  | .next => True
  | .peek => True
  | .insertAtCursor text => '\n' ∉ text.toList
  | .insertNextLine text => '\n' ∉ text.toList

instance : DecidablePred OneLine
  | .next => .isTrue trivial
  | .peek => .isTrue trivial
  | .insertAtCursor text => inferInstanceAs (Decidable ('\n' ∉ text.toList))
  | .insertNextLine text => inferInstanceAs (Decidable ('\n' ∉ text.toList))

end Action

/-- Every splice puts in one piece of text, with the line breaks of that text and no others. -/
theorem exists_gains {b : Buffer} {action : Action} {injection : Injection}
    (h : (b.perform action).1 = .spliced injection) : ∃ front breaks piece back,
      Gains b (b.perform action).2 injection.offset front breaks piece back ∧
        (action.OneLine → '\n' ∉ piece) := by
  have hpiece : ∀ {left right : Option Char} {text : String}, '\n' ∉ text.toList →
      '\n' ∉ padded left text.toList right :=
    fun htext hmem => (mem_padded hmem).elim (by decide) htext
  cases action with
  | next | peek => cases h
  | insertAtCursor text =>
      cases h
      exact ⟨_, _, _, _, b.gains_insertAtCursor text, fun htext => hpiece htext⟩
  | insertNextLine text =>
      cases h
      obtain ⟨front, breaks, back, hgains⟩ := b.gains_insertNextLine text
      exact ⟨_, _, _, _, hgains, fun htext => hpiece htext⟩

end TwoPhase.Buffer
