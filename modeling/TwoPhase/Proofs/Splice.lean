import Mathlib.Data.List.TakeWhile
import TwoPhase.Buffer
import TwoPhase.Deferral.InjectionMode

/-!
# Splices

A splice changes the text behind the cursor and nothing else.
-/

namespace TwoPhase.Buffer

/-- Splices a text in where a mode says. -/
def insert (b : Buffer) (mode : InjectionMode) (text : String) : Buffer :=
  match mode with
  | .precise => (b.insertAtCursor text).2
  | .line => (b.insertNextLine text).2

/-- `Spliced b c`: any number of splices make `c` of `b`. -/
inductive Spliced (b : Buffer) : Buffer → Prop where
  | refl : Spliced b b
  | insert {c : Buffer} (h : Spliced b c) (mode : InjectionMode) (text : String) :
      Spliced b (c.insert mode text)

variable {b c d : Buffer}

theorem Spliced.trans (h : Spliced b c) (h' : Spliced c d) : Spliced b d := by
  induction h' with
  | refl => exact h
  | insert _ mode text ih => exact ih.insert mode text

/-- What is in front of the cursor stays. -/
theorem insert_before (b : Buffer) (mode : InjectionMode) (text : String) :
    (b.insert mode text).before = b.before ∧ (b.insert mode text).cursor = b.cursor ∧
      (b.insert mode text).consumed = b.consumed := by
  cases mode <;> exact ⟨rfl, rfl, rfl⟩

theorem Spliced.before (h : Spliced b c) :
    c.before = b.before ∧ c.cursor = b.cursor ∧ c.consumed = b.consumed := by
  induction h with
  | refl => exact ⟨rfl, rfl, rfl⟩
  | insert _ mode text ih =>
      obtain ⟨hbefore, hcursor, hconsumed⟩ := insert_before _ mode text
      exact ⟨hbefore.trans ih.1, hcursor.trans ih.2.1, hconsumed.trans ih.2.2⟩

/-- In line mode, text goes in front of the next line, which is empty where there was none. -/
theorem insert_line_after (b : Buffer) (text : String) : ∃ line following, '\n' ∉ line ∧
    (b.after = line ∧ following = [] ∨ b.after = line ++ '\n' :: following) ∧
    (b.insert .line text).after
      = line ++ '\n' :: (padded (some '\n') text.toList following.head? ++ following) := by
  refine ⟨b.after.takeWhile (· != '\n'), (b.after.dropWhile (· != '\n')).drop 1, ?_, ?_, rfl⟩
  · intro hmem
    simpa using List.mem_takeWhile_imp hmem
  · have hsplit := List.takeWhile_append_dropWhile (p := (· != '\n')) (l := b.after)
    cases hrest : b.after.dropWhile (· != '\n') with
    | nil =>
        rw [hrest, List.append_nil] at hsplit
        exact .inl ⟨hsplit.symm, rfl⟩
    | cons c following =>
        have hhead := List.head?_dropWhile_not (· != '\n') b.after
        have hc : c = '\n' := by
          rw [hrest] at hhead
          simpa using hhead
        rw [hrest, hc] at hsplit
        exact .inr hsplit.symm

/-- The current line ends at the first line break. -/
theorem takeWhile_line {line following : List Char} (hline : '\n' ∉ line)
    {after : List Char}
    (hafter : after = line ∧ following = [] ∨ after = line ++ '\n' :: following) :
    after.takeWhile (· != '\n') = line := by
  have hall : ∀ c ∈ line, (c != '\n') = true := fun c hc => bne_iff_ne.2 fun heq => hline (heq ▸ hc)
  rcases hafter with ⟨rfl, _⟩ | rfl
  · exact List.takeWhile_eq_self_iff.2 hall
  · rw [List.takeWhile_append_of_pos hall]
    simp

end TwoPhase.Buffer
