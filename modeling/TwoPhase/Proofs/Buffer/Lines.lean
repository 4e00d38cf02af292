import TwoPhase.Proofs.Text.Cuts
import TwoPhase.Proofs.Buffer.Actions

/-!
# Spliced text and the lines of a user's file

Text without line breaks that is spliced into a buffer leaves every character of the file on its
line.  A splice moves what is behind it by the bytes that it puts in (`moved`), so the characters
stay in order, and it changes columns only on the line that it lands on (`landings`).

Either the text lands inside a line, or it lands on a line that was not there before.  The line
break that makes such a line goes in behind all characters of the file, so it moves none of them.
-/

namespace TwoPhase.Buffer

open Text (byteLength charAt? position lastLine)

variable {b c : Buffer} {place offset : Nat} {front breaks piece back : List Char} {x : Char}

/-! ## Where characters go -/

/-- Where a splice at some offset moves a character to. -/
def shifted (b c : Buffer) (place offset : Nat) : Nat :=
  if offset < place then offset else offset + (byteLength c.chars - byteLength b.chars)

/-- Where an action moves a character to. -/
def movedBy (b : Buffer) (action : Action) (offset : Nat) : Nat :=
  match (b.perform action).1 with
  | .token _ => offset
  | .spliced injection => b.shifted (b.perform action).2 injection.offset offset

/-- Where a run moves a character to. -/
def moved (b : Buffer) : List Action → Nat → Nat
  | [], offset => offset
  | action :: actions, offset => (b.perform action).2.moved actions (b.movedBy action offset)

/-- The line that an action splices text into. -/
def landing? (b : Buffer) (action : Action) : Option Nat :=
  match (b.perform action).1 with
  | .token _ => none
  | .spliced injection => some (position (b.perform action).2.chars injection.offset).line

/-- The lines that a run splices text into. -/
def landings (b : Buffer) : List Action → List Nat
  | [] => []
  | action :: actions =>
    (b.landing? action).toList ++ (b.perform action).2.landings actions

/-! ## One splice -/

/-- A character of a text in two parts is in the first or in the second. -/
theorem part_of_character {before after : List Char}
    (h : front ++ back = before ++ x :: after) : (∃ rest, front = before ++ x :: rest) ∨
      ∃ more, before = front ++ more ∧ back = more ++ x :: after := by
  rcases List.append_eq_append_iff.1 h with ⟨more, hbefore, hback⟩ | ⟨more, hfront, hmore⟩
  · exact .inr ⟨more, hbefore, hback⟩
  · cases more with
    | nil => exact .inr ⟨[], by simpa using hfront.symm, hmore.symm⟩
    | cons y more =>
        obtain ⟨rfl, _⟩ := List.cons.inj hmore
        exact .inl ⟨more, hfront⟩

namespace Gains

theorem shifted_front (h : Gains b c place front breaks piece back) {more rest : List Char}
    (hfront : front = more ++ x :: rest) :
    b.shifted c place (byteLength more) = byteLength more := by
  have hpos : 0 < x.utf8Size := x.utf8Size_pos
  rw [shifted, if_pos]
  rw [h.offset, hfront]
  simp only [Text.byteLength_append, Text.byteLength_cons]
  omega

theorem shifted_back (h : Gains b c place front [] piece back) (more : List Char) :
    b.shifted c place (byteLength (front ++ more)) = byteLength (front ++ piece ++ more) := by
  have hbytes : byteLength c.chars - byteLength b.chars = byteLength piece := by
    rw [h.new, h.old]
    simp only [Text.byteLength_append, Text.byteLength_nil]
    omega
  rw [shifted, hbytes, if_neg]
  · simp only [Text.byteLength_append]
    omega
  · rw [h.offset, List.append_nil, Text.byteLength_append]
    omega

/-- A splice keeps every character, and keeps it on its line.  Its column changes only if the text
is spliced into that line. -/
theorem keeps (h : Gains b c place front breaks piece back) (hpiece : '\n' ∉ piece)
    (hx : charAt? b.chars offset = some x) :
    charAt? c.chars (b.shifted c place offset) = some x ∧
      (position c.chars (b.shifted c place offset)).line = (position b.chars offset).line ∧
      ((position b.chars offset).line ≠ (position c.chars place).line →
        position c.chars (b.shifted c place offset) = position b.chars offset) := by
  obtain ⟨before, after, hchars, rfl⟩ := Text.charAt?_eq_some_iff.1 hx
  rcases part_of_character (h.old ▸ hchars) with ⟨rest, hfront⟩ | ⟨more, rfl, hback⟩
  · -- in front of the text, nothing changes
    have hnew : c.chars = before ++ x :: (rest ++ breaks ++ piece ++ back) := by
      rw [h.new, hfront]
      simp
    rw [h.shifted_front hfront, hnew, hchars, Text.position_append, Text.position_append]
    exact ⟨Text.charAt?_eq_some_iff.2 ⟨_, _, rfl, rfl⟩, rfl, fun _ => rfl⟩
  · -- something stands behind the text, so it has a line to land on
    obtain rfl : breaks = [] := h.lineless.resolve_right fun hnone => by simp [hnone.2] at hback
    have hnew : c.chars = front ++ piece ++ more ++ x :: after := by
      rw [h.new, hback]
      simp
    have hland : (position c.chars place).line = front.count '\n' + 1 := by
      rw [h.new, h.offset, List.append_assoc, Text.position_append, List.append_nil]
    rw [hland, h.shifted_back more, hnew, hchars, Text.position_append, Text.position_append]
    have hcount : (front ++ piece ++ more).count '\n' = (front ++ more).count '\n' := by
      simp [List.count_append, List.count_eq_zero.2 hpiece]
    refine ⟨Text.charAt?_eq_some_iff.2 ⟨_, _, rfl, rfl⟩, by rw [hcount], fun hline => ?_⟩
    have hmore : '\n' ∈ more := by
      by_contra hmore
      simp [List.count_eq_zero.2 hmore] at hline
    rw [hcount, Text.lastLine_append_of_mem _ hmore, Text.lastLine_append_of_mem _ hmore]

end Gains

theorem shifted_lt {offset' : Nat} (b c : Buffer) (place : Nat) (h : offset < offset') :
    b.shifted c place offset < b.shifted c place offset' := by
  unfold shifted
  split <;> split <;> omega

/-! ## Runs -/

theorem movedBy_lt {offset' : Nat} (b : Buffer) (action : Action) (h : offset < offset') :
    b.movedBy action offset < b.movedBy action offset' := by
  unfold movedBy
  split
  · exact h
  · exact shifted_lt _ _ _ h

theorem moved_lt {offset' : Nat} (b : Buffer) (actions : List Action) (h : offset < offset') :
    b.moved actions offset < b.moved actions offset' := by
  induction actions generalizing b offset offset' with
  | nil => exact h
  | cons action actions ih => exact ih _ (b.movedBy_lt action h)

/-- An action keeps every character and its line, and changes columns on one line at most. -/
theorem perform_keeps {action : Action} (honeLine : action.OneLine)
    (hx : charAt? b.chars offset = some x) :
    charAt? (b.perform action).2.chars (b.movedBy action offset) = some x ∧
      (position (b.perform action).2.chars (b.movedBy action offset)).line
        = (position b.chars offset).line ∧
      ((position b.chars offset).line ∉ b.landing? action →
        position (b.perform action).2.chars (b.movedBy action offset)
          = position b.chars offset) := by
  unfold movedBy landing?
  cases hanswer : (b.perform action).1 with
  | token token =>
      rw [chars_of_token hanswer]
      exact ⟨hx, rfl, fun _ => rfl⟩
  | spliced injection =>
      obtain ⟨front, breaks, piece, back, hgains, hpiece⟩ := exists_gains hanswer
      obtain ⟨hchar, hline, hcolumn⟩ := hgains.keeps (hpiece honeLine) hx
      exact ⟨hchar, hline, fun hland => hcolumn fun heq => hland (heq ▸ rfl)⟩

/-- A run keeps what its actions keep. -/
theorem performAll_keeps {actions : List Action} (honeLine : ∀ action ∈ actions, action.OneLine)
    (hx : charAt? b.chars offset = some x) :
    charAt? (b.performAll actions).chars (b.moved actions offset) = some x ∧
      (position (b.performAll actions).chars (b.moved actions offset)).line
        = (position b.chars offset).line ∧
      ((position b.chars offset).line ∉ b.landings actions →
        position (b.performAll actions).chars (b.moved actions offset)
          = position b.chars offset) := by
  induction actions generalizing b offset with
  | nil => exact ⟨hx, rfl, fun _ => rfl⟩
  | cons action actions ih =>
      obtain ⟨hchar, hline, hcolumn⟩ := perform_keeps (honeLine action List.mem_cons_self) hx
      obtain ⟨hchar', hline', hcolumn'⟩ :=
        ih (fun other hother => honeLine other (List.mem_cons_of_mem _ hother)) hchar
      refine ⟨hchar', hline'.trans hline, fun hland => ?_⟩
      rw [landings, List.mem_append, not_or, Option.mem_toList] at hland
      exact (hcolumn' (hline ▸ hland.2)).trans (hcolumn hland.1)

/-- However tokens are taken from a file and texts without line breaks are spliced in, every
character of the file is in the final text, in the same order and on the same line.  The column is
the same too, unless a text was spliced into that line. -/
theorem lines_kept (source : String) (actions : List Action)
    (honeLine : ∀ action ∈ actions, action.OneLine) :
    let b := ofString source
    let final := (b.performAll actions).chars
    (∀ offset offset', offset < offset' → b.moved actions offset < b.moved actions offset') ∧
    ∀ offset x, charAt? source.toList offset = some x →
      charAt? final (b.moved actions offset) = some x ∧
        (position final (b.moved actions offset)).line = (position source.toList offset).line ∧
        ((position source.toList offset).line ∉ b.landings actions →
          position final (b.moved actions offset) = position source.toList offset) := by
  intro b final
  exact ⟨fun _ _ h => b.moved_lt actions h, fun _ _ hx => performAll_keeps (b := b) honeLine hx⟩

/-- One text is spliced into the last line of a file and one behind it, on a line of its own.  What
is left of the last line has another column then, and the first line is as it was. -/
theorem lines_kept_at_end :
    let actions : List Action := [.next, .next, .insertAtCursor "print(1);", .insertNextLine "f();"]
    let b := ofString "begin\nx y"
    let final := (b.performAll actions).chars
    (∀ action ∈ actions, action.OneLine) ∧ String.ofList final = "begin\nx print(1); y\nf();" ∧
      b.landings actions = [2, 3] ∧ b.moved actions 8 = 18 ∧
      (charAt? final 18 = some 'y' ∧ (position final 18).line = 2) ∧
      position final (b.moved actions 0) = ⟨1, 1⟩ := by
  intro actions b final
  have honeLine : ∀ action ∈ actions, action.OneLine := by decide +kernel
  have hlandings : b.landings actions = [2, 3] := by decide +kernel
  have hmoved : b.moved actions 8 = 18 := by decide +kernel
  obtain ⟨_, hkept⟩ := lines_kept "begin\nx y" actions honeLine
  obtain ⟨hy, hline, _⟩ := hkept 8 'y' (by decide +kernel)
  obtain ⟨_, _, hfirst⟩ := hkept 0 'b' (by decide +kernel)
  have hbegin : position "begin\nx y".toList 0 = ⟨1, 1⟩ := by decide +kernel
  have hsecond : position "begin\nx y".toList 8 = ⟨2, 3⟩ := by decide +kernel
  rw [hmoved] at hy hline
  rw [hsecond] at hline
  rw [hbegin] at hfirst
  exact ⟨honeLine, by decide +kernel, hlandings, hmoved, ⟨hy, hline⟩,
    hfirst (by rw [hlandings]; decide)⟩

end TwoPhase.Buffer
