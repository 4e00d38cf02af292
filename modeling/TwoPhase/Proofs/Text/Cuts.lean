import TwoPhase.Text.Position

/-!
# Cutting texts

A cut at a byte offset takes a text apart into what is in front and what is behind.  So what is said
of an offset (the slice between two, the line and the column) can be said of the two parts, and no
proof has to count bytes.
-/

namespace TwoPhase.Text

variable {cs front middle rest before : List Char} {start stop offset : Nat}

/-! ## Cuts -/

/-- No character is without bytes, so a walk that has one to take is not at its end. -/
theorem exists_succ_eq_utf8Size_add (c : Char) (n : Nat) : ∃ size, c.utf8Size + n = size + 1 := by
  have hpos : 0 < c.utf8Size := c.utf8Size_pos
  exact ⟨c.utf8Size + n - 1, by omega⟩

theorem cutFrom_cons (before : List Char) (c : Char) (cs : List Char) (n : Nat) :
    cutFrom before (c :: cs) (c.utf8Size + n) = cutFrom (c :: before) cs n := by
  obtain ⟨size, hsize⟩ := exists_succ_eq_utf8Size_add c n
  rw [hsize, cutFrom, if_pos (by omega), ← hsize, Nat.add_sub_cancel_left]

theorem cutFrom_append (before front rest : List Char) :
    cutFrom before (front ++ rest) (byteLength front) = some (before.reverse ++ front, rest) := by
  induction front generalizing before with
  | nil => cases rest <;> simp [cutFrom]
  | cons c front ih =>
      rw [byteLength_cons, List.cons_append, cutFrom_cons, ih]
      simp

theorem cut_append (front rest : List Char) :
    cut (front ++ rest) (byteLength front) = some (front, rest) :=
  cutFrom_append [] front rest

theorem eq_of_cutFrom (h : cutFrom before cs offset = some (front, rest)) :
    ∃ more, front = before.reverse ++ more ∧ cs = more ++ rest ∧ byteLength more = offset := by
  fun_induction cutFrom before cs offset with
  | case1 before cs =>
      obtain ⟨rfl, rfl⟩ := Prod.mk.inj (Option.some.inj h)
      exact ⟨[], by simp, rfl, rfl⟩
  | case2 => cases h
  | case3 before c cs n hfits ih =>
      obtain ⟨more, hfront, hcs, hmore⟩ := ih h
      refine ⟨c :: more, by simp [hfront], by rw [hcs]; rfl, ?_⟩
      rw [byteLength_cons, hmore]
      omega
  | case4 => cases h

/-- A cut gives the two parts that the offset lies between. -/
theorem cut_eq_some_iff :
    cut cs offset = some (front, rest) ↔ cs = front ++ rest ∧ byteLength front = offset := by
  constructor
  · intro h
    obtain ⟨more, rfl, hcs, hmore⟩ := eq_of_cutFrom h
    exact ⟨hcs, hmore⟩
  · rintro ⟨rfl, rfl⟩
    exact cut_append front rest

theorem slice?_append (front middle rest : List Char) :
    slice? (front ++ middle ++ rest) (byteLength front) (byteLength (front ++ middle))
      = some middle := by
  have hle : byteLength front ≤ byteLength (front ++ middle) := by
    rw [byteLength_append]
    exact Nat.le_add_right _ _
  have hlength : byteLength (front ++ middle) - byteLength front = byteLength middle := by
    rw [byteLength_append, Nat.add_sub_cancel_left]
  rw [slice?, if_pos hle, hlength, List.append_assoc, cut_append]
  simp [cut_append]

/-- A slice is what stands between the parts that its two offsets cut off. -/
theorem slice?_eq_some_iff : slice? cs start stop = some middle ↔ ∃ front rest,
    cs = front ++ middle ++ rest ∧ byteLength front = start ∧
      byteLength (front ++ middle) = stop := by
  constructor
  · intro h
    unfold slice? at h
    split at h
    · rename_i hle
      obtain ⟨⟨front, right⟩, hcut, hrest⟩ := Option.bind_eq_some_iff.1 h
      obtain ⟨⟨middle', rest⟩, hcut', hmiddle⟩ := Option.bind_eq_some_iff.1 hrest
      obtain ⟨rfl, rfl⟩ := cut_eq_some_iff.1 hcut
      obtain ⟨rfl, hlength⟩ := cut_eq_some_iff.1 hcut'
      cases hmiddle
      refine ⟨front, rest, (List.append_assoc _ _ _).symm, rfl, ?_⟩
      rw [byteLength_append]
      omega
    · cases h
  · rintro ⟨front, rest, rfl, rfl, rfl⟩
    exact slice?_append front middle rest

/-- A slice stays the same whatever is put behind the text. -/
theorem slice?_of_prefix {ds : List Char} (h : slice? cs start stop = some middle)
    (hbefore : cs <+: ds) : slice? ds start stop = some middle := by
  obtain ⟨front, rest, rfl, hstart, hstop⟩ := slice?_eq_some_iff.1 h
  obtain ⟨more, rfl⟩ := hbefore
  exact slice?_eq_some_iff.2 ⟨front, rest ++ more, by simp, hstart, hstop⟩

/-- The character behind an offset. -/
def charAt? (cs : List Char) (offset : Nat) : Option Char :=
  (cut cs offset).bind fun (_, rest) => rest.head?

theorem charAt?_eq_some_iff {c : Char} : charAt? cs offset = some c ↔
    ∃ front rest, cs = front ++ c :: rest ∧ byteLength front = offset := by
  constructor
  · intro h
    obtain ⟨⟨front, behind⟩, hcut, hhead⟩ := Option.bind_eq_some_iff.1 h
    obtain ⟨rest, rfl⟩ := List.head?_eq_some_iff.1 hhead
    exact ⟨front, rest, cut_eq_some_iff.1 hcut⟩
  · rintro ⟨front, rest, rfl, rfl⟩
    rw [charAt?, cut_append]
    rfl

/-! ## Lines and columns -/

/-- What stands behind the last line break of a text. -/
def lastLine : List Char → List Char
  | [] => []
  | c :: cs => if '\n' ∈ cs then lastLine cs else if c = '\n' then cs else c :: cs

theorem lastLine_of_notMem (h : '\n' ∉ cs) : lastLine cs = cs := by
  cases cs with
  | nil => rfl
  | cons c cs =>
      rw [List.mem_cons, not_or] at h
      rw [lastLine, if_neg h.2, if_neg (Ne.symm h.1)]

theorem lastLine_cons_break (cs : List Char) : lastLine ('\n' :: cs) = lastLine cs := by
  by_cases hmore : '\n' ∈ cs
  · rw [lastLine, if_pos hmore]
  · rw [lastLine, if_neg hmore, if_pos rfl, lastLine_of_notMem hmore]

theorem lastLine_append_of_mem (front : List Char) (h : '\n' ∈ rest) :
    lastLine (front ++ rest) = lastLine rest := by
  induction front with
  | nil => rfl
  | cons c front ih =>
      rw [List.cons_append, lastLine, if_pos (List.mem_append_right front h), ih]

theorem walk_cons (here : Position) (c : Char) (cs : List Char) (n : Nat) :
    walk here (c :: cs) (c.utf8Size + n)
      = walk (if c = '\n' then ⟨here.line + 1, 1⟩ else ⟨here.line, here.column + 1⟩) cs n := by
  obtain ⟨size, hsize⟩ := exists_succ_eq_utf8Size_add c n
  rw [hsize, walk, if_pos (by omega), ← hsize, Nat.add_sub_cancel_left]

theorem walk_append (here : Position) (front rest : List Char) :
    walk here (front ++ rest) (byteLength front)
      = ⟨here.line + front.count '\n', if '\n' ∈ front then (lastLine front).length + 1
          else here.column + front.length⟩ := by
  induction front generalizing here with
  | nil => cases rest <;> simp [walk]
  | cons c front ih =>
      rw [byteLength_cons, List.cons_append, walk_cons, ih]
      by_cases hbreak : c = '\n'
      · subst hbreak
        by_cases hmore : '\n' ∈ front
        · simp [lastLine, hmore, Nat.add_comm, Nat.add_left_comm]
        · simp [lastLine, hmore, Nat.add_comm, Nat.add_left_comm]
      · have hmem : '\n' ∈ c :: front ↔ '\n' ∈ front := by simp [Ne.symm hbreak]
        by_cases hmore : '\n' ∈ front
        · simp [lastLine, hmore, hbreak]
        · simp [hmore, hbreak, Ne.symm hbreak, Nat.add_comm, Nat.add_left_comm]

/-- The line behind a part of a text is one more than its line breaks, and the column one more than
the characters behind the last of them. -/
theorem position_append (front rest : List Char) :
    position (front ++ rest) (byteLength front)
      = ⟨front.count '\n' + 1, (lastLine front).length + 1⟩ := by
  rw [position, walk_append]
  by_cases hbreak : '\n' ∈ front
  · simp [hbreak, Nat.add_comm]
  · simp [hbreak, lastLine_of_notMem hbreak, Nat.add_comm]

theorem lineFrom?_cons (before : List Char) (c : Char) (cs : List Char) (n : Nat) :
    lineFrom? before (c :: cs) (c.utf8Size + n)
      = lineFrom? (if c = '\n' then [] else c :: before) cs n := by
  obtain ⟨size, hsize⟩ := exists_succ_eq_utf8Size_add c n
  rw [hsize, lineFrom?, if_pos (by omega), ← hsize, Nat.add_sub_cancel_left]

theorem lineFrom?_append (before front rest : List Char) :
    lineFrom? before (front ++ rest) (byteLength front)
      = some ((if '\n' ∈ front then lastLine front else before.reverse ++ front)
          ++ rest.takeWhile (· != '\n')) := by
  induction front generalizing before with
  | nil => cases rest <;> simp [lineFrom?]
  | cons c front ih =>
      rw [byteLength_cons, List.cons_append, lineFrom?_cons, ih]
      by_cases hbreak : c = '\n'
      · subst hbreak
        by_cases hmore : '\n' ∈ front <;> simp [lastLine, hmore]
      · by_cases hmore : '\n' ∈ front <;> simp [lastLine, hmore, hbreak, Ne.symm hbreak]

/-- The line around an offset is what is in front of it on its line, and what is behind it on its
line. -/
theorem lineAt?_append (front rest : List Char) :
    lineAt? (front ++ rest) (byteLength front)
      = some (lastLine front ++ rest.takeWhile (· != '\n')) := by
  rw [lineAt?, lineFrom?_append]
  by_cases hbreak : '\n' ∈ front
  · rw [if_pos hbreak]
  · rw [if_neg hbreak, lastLine_of_notMem hbreak]
    rfl

end TwoPhase.Text
