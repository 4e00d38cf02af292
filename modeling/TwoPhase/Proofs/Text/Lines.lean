import TwoPhase.Proofs.Sound.Spans
import TwoPhase.Proofs.Text.Cuts

/-!
# Lines, columns and offsets

A text is its lines with a line break between each two.  The position of an offset is read off a
walk that counts line breaks and characters, and the line around it off another one.  Both are the
same place in the list of lines: a line is where the position says, and the offset is what the
position says it is, `offsetOf`.  So no two offsets between characters have one position.

What is in front of an offset is whole lines and then the last one (`exists_lines`), so the facts
are proved by a single induction on it.  There is a line around every offset that is not inside a
character (`lineAt?_isSome_iff`).
-/

namespace TwoPhase.Text

/-- The lines of a text, without their line breaks.  Behind a last line break there is one more
line, which is empty. -/
def lines (cs : List Char) : List (List Char) := cs.splitOn '\n'

/-- The offset that is behind some lines with their line breaks, and some characters of the next
line. -/
def offsetOf (lines : List (List Char)) (place : Position) : Nat :=
  byteLength (lines.take (place.line - 1)).flatten + (place.line - 1)
    + byteLength ((lines.getD (place.line - 1) []).take (place.column - 1))

variable {cs : List Char} {offset : Nat}

/-! ## Lines -/

theorem lines_cons_break (cs : List Char) : lines ('\n' :: cs) = [] :: lines cs := by
  rw [lines, List.splitOn_cons_eq_if_modifyHead]
  rfl

theorem lines_cons {c : Char} (h : c ≠ '\n') (cs : List Char) :
    lines (c :: cs) = (lines cs).modifyHead (c :: ·) := by
  rw [lines, List.splitOn_cons_eq_if_modifyHead, if_neg (by simpa using h)]
  rfl

/-- The first line of a text goes up to the first line break. -/
theorem exists_lines_cons (cs : List Char) :
    ∃ more, lines cs = cs.takeWhile (· != '\n') :: more := by
  induction cs with
  | nil => exact ⟨[], rfl⟩
  | cons c cs ih =>
      by_cases hbreak : c = '\n'
      · subst hbreak
        exact ⟨lines cs, lines_cons_break cs⟩
      · obtain ⟨more, hmore⟩ := ih
        refine ⟨more, ?_⟩
        rw [lines_cons hbreak, hmore]
        simp [hbreak]

/-- What is in front of an offset is whole lines, and then the part of the next line that is in
front of it. -/
theorem exists_lines (front rest : List Char) : ∃ before after,
    lines (front ++ rest) = before ++ (lastLine front ++ rest.takeWhile (· != '\n')) :: after ∧
      before.length = front.count '\n' ∧
      byteLength front
        = byteLength before.flatten + before.length + byteLength (lastLine front) := by
  induction front with
  | nil =>
      obtain ⟨more, hmore⟩ := exists_lines_cons rest
      exact ⟨[], more, hmore, rfl, rfl⟩
  | cons c front ih =>
      obtain ⟨before, after, hlines, hcount, hbytes⟩ := ih
      by_cases hbreak : c = '\n'
      · subst hbreak
        refine ⟨[] :: before, after, ?_, ?_, ?_⟩
        · rw [List.cons_append, lines_cons_break, hlines, lastLine_cons_break]
          rfl
        · rw [List.length_cons, hcount, List.count_cons_self]
        · have hsize : Char.utf8Size '\n' = 1 := rfl
          simp only [byteLength_cons, lastLine_cons_break, List.flatten_cons, List.nil_append,
            List.length_cons, hbytes, hsize]
          omega
      · rw [List.cons_append, lines_cons hbreak, hlines, List.count_cons_of_ne hbreak]
        cases before with
        | nil =>
            -- the line goes on to the left
            have hnone : '\n' ∉ front := List.count_eq_zero.1 hcount.symm
            have hnone' : '\n' ∉ c :: front := by simp [hnone, Ne.symm hbreak]
            rw [lastLine_of_notMem hnone] at hbytes ⊢
            rw [lastLine_of_notMem hnone']
            exact ⟨[], after, rfl, hcount, by simp⟩
        | cons first before =>
            have hsome : '\n' ∈ front := by
              apply List.count_pos_iff.1
              rw [← hcount]
              exact Nat.succ_pos _
            have hlast : lastLine (c :: front) = lastLine front := by
              rw [lastLine, if_pos hsome]
            rw [hlast]
            refine ⟨(c :: first) :: before, after, rfl, hcount, ?_⟩
            simp only [byteLength_cons, List.flatten_cons, List.cons_append, List.length_cons,
              hbytes]
            omega

/-! ## Offsets past the end -/

theorem walk_past (here : Position) (cs : List Char) (more : Nat) :
    walk here cs (byteLength cs + more) = walk here cs (byteLength cs) := by
  induction cs generalizing here with
  | nil => cases more <;> rfl
  | cons c cs ih => rw [byteLength_cons, Nat.add_assoc, walk_cons, walk_cons, ih]

theorem lineFrom?_past (before cs : List Char) (more : Nat) :
    lineFrom? before cs (byteLength cs + more) = lineFrom? before cs (byteLength cs) := by
  induction cs generalizing before with
  | nil => cases more <;> rfl
  | cons c cs ih => rw [byteLength_cons, Nat.add_assoc, lineFrom?_cons, lineFrom?_cons, ih]

theorem lineAt?_min (cs : List Char) (offset : Nat) :
    lineAt? cs (min offset (byteLength cs)) = lineAt? cs offset := by
  rcases Nat.le_total offset (byteLength cs) with hle | hpast
  · rw [Nat.min_eq_left hle]
  · obtain ⟨more, rfl⟩ := Nat.exists_eq_add_of_le hpast
    rw [Nat.min_eq_right hpast]
    exact (lineFrom?_past [] cs more).symm

/-! ## The line around an offset -/

theorem boundary_of_lineFrom? {before : List Char} (h : (lineFrom? before cs offset).isSome) :
    Boundary cs (min offset (byteLength cs)) := by
  fun_induction lineFrom? before cs offset with
  | case1 before offset =>
      rw [byteLength_nil, Nat.min_zero]
      exact .zero
  | case2 before c cs =>
      rw [Nat.zero_min]
      exact .zero
  | case3 before c cs n hfits ih =>
      obtain ⟨front, hfront, hbytes⟩ := ih h
      refine ⟨c :: front, List.cons_prefix_cons.2 ⟨rfl, hfront⟩, ?_⟩
      rw [byteLength_cons, byteLength_cons, hbytes]
      omega
  | case4 => cases h

/-- There is a line around an offset unless the offset is inside a character. -/
theorem lineAt?_isSome_iff :
    (lineAt? cs offset).isSome ↔ Boundary cs (min offset (byteLength cs)) := by
  refine ⟨boundary_of_lineFrom?, fun h => ?_⟩
  rw [← lineAt?_min]
  exact h.lineAt?

theorem lastLine_suffix (cs : List Char) : lastLine cs <:+ cs := by
  induction cs with
  | nil => exact List.suffix_rfl
  | cons c cs ih =>
      unfold lastLine
      split
      · exact ih.trans (List.suffix_cons c cs)
      · split
        · exact List.suffix_cons c cs
        · exact List.suffix_rfl

/-- A line has no characters but those of the text. -/
theorem subset_of_lineAt? {line : List Char} (h : lineAt? cs offset = some line) : line ⊆ cs := by
  obtain ⟨front, ⟨rest, rfl⟩, hfront⟩ := lineAt?_isSome_iff.1 (Option.isSome_of_eq_some h)
  rw [← lineAt?_min, ← hfront, lineAt?_append] at h
  cases h
  exact List.append_subset.2 ⟨
    List.subset_append_of_subset_left _ (lastLine_suffix front).subset,
    List.subset_append_of_subset_right _ (List.takeWhile_prefix _).subset⟩

/-! ## Positions -/

/-- An offset between characters is where its position says, and the line around it is the line
that its position says. -/
theorem position_locates (h : Boundary cs offset) :
    offsetOf (lines cs) (position cs offset) = offset ∧
      ∃ line, (lines cs)[(position cs offset).line - 1]? = some line ∧
        lineAt? cs offset = some line ∧ (position cs offset).column - 1 ≤ line.length := by
  obtain ⟨front, ⟨rest, rfl⟩, rfl⟩ := h
  obtain ⟨before, after, hlines, hcount, hbytes⟩ := exists_lines front rest
  have hline : (lines (front ++ rest))[before.length]?
      = some (lastLine front ++ rest.takeWhile (· != '\n')) := by simp [hlines]
  rw [position_append, ← hcount]
  simp only [offsetOf, Nat.add_sub_cancel]
  refine ⟨?_, _, hline, lineAt?_append front rest, by simp⟩
  rw [List.getD_eq_getElem?_getD, hline, Option.getD_some, List.take_left, hlines, List.take_left]
  exact hbytes.symm

/-- Line and column of an offset say where it is.  The line that they name is the line around the
offset, and the offset is the lines before it with their line breaks, and the characters of the line
before the column.  So different offsets have different positions.  An offset past the end is at
the end. -/
theorem position_determines_offset (text : String) :
    let cs := text.toList
    (∀ offset, Boundary cs offset →
      let here := position cs offset
      0 < here.line ∧ 0 < here.column ∧ offsetOf (lines cs) here = offset ∧
        ∃ line, (lines cs)[here.line - 1]? = some line ∧ lineAt? cs offset = some line ∧
          here.column - 1 ≤ line.length) ∧
    (∀ offset offset', Boundary cs offset → Boundary cs offset' →
      position cs offset = position cs offset' → offset = offset') ∧
    ∀ offset, byteLength cs ≤ offset →
      position cs offset = position cs (byteLength cs) ∧
        lineAt? cs offset = lineAt? cs (byteLength cs) := by
  intro cs
  refine ⟨?_, ?_, ?_⟩
  · intro offset h here
    obtain ⟨hoffset, hline⟩ := position_locates h
    obtain ⟨front, ⟨rest, hcs⟩, hfront⟩ := h
    have hhere : here = ⟨front.count '\n' + 1, (lastLine front).length + 1⟩ := by
      rw [← position_append front rest, hcs, hfront]
    refine ⟨?_, ?_, hoffset, hline⟩
    · rw [hhere]
      exact Nat.succ_pos _
    · rw [hhere]
      exact Nat.succ_pos _
  · intro offset offset' h h' hsame
    calc offset = offsetOf (lines cs) (position cs offset) := (position_locates h).1.symm
      _ = offsetOf (lines cs) (position cs offset') := by rw [hsame]
      _ = offset' := (position_locates h').1
  · intro offset hpast
    obtain ⟨more, rfl⟩ := Nat.exists_eq_add_of_le hpast
    exact ⟨walk_past _ _ _, lineFrom?_past _ _ _⟩

/-- Line and column say where an offset is though characters of two and three bytes are in front of
it. -/
theorem position_determines_offset_wide :
    let cs := "é\n日b\n".toList
    Boundary cs 6 ∧ position cs 6 = ⟨2, 2⟩ ∧ lines cs = [['é'], ['日', 'b'], []] ∧
      offsetOf (lines cs) ⟨2, 2⟩ = 6 ∧ lineAt? cs 6 = some ['日', 'b'] := by
  intro cs
  have hboundary : Boundary cs 6 := ⟨"é\n日".toList, by decide, by decide⟩
  have hhere : position cs 6 = ⟨2, 2⟩ := by decide
  have hlines : lines cs = [['é'], ['日', 'b'], []] := by decide
  obtain ⟨hlocates, _⟩ := position_determines_offset "é\n日b\n"
  obtain ⟨_, _, hoffset, line, hline, haround, _⟩ := hlocates 6 hboundary
  rw [hhere] at hoffset
  rw [hhere, hlines] at hline
  obtain rfl : ['日', 'b'] = line := Option.some.inj hline
  exact ⟨hboundary, hhere, hlines, hoffset, haround⟩

end TwoPhase.Text
