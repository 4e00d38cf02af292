import TwoPhase.Globals

/-!
# Globals

What each operation does to the cells and names, and the two facts that hold of all globals in use:
every name stands for a cell that was made for it (`Named`), and what no write has touched
(`Untouched`) changes by binding the name afresh only.
-/

namespace TwoPhase.Globals

variable {g : Globals} {name other : String}

/-! ## Names -/

theorem get?_bindFresh (g : Globals) (name other : String) (value : Option Value) :
    (g.bindFresh name value).get? other =
      if other = name then some (g.nextCell name) else g.get? other := by
  simp only [get?, bindFresh, Std.TreeMap.getElem?_insert, Std.LawfulEqCmp.compare_eq_iff_eq]
  by_cases h : other = name
  · rw [if_pos h, if_pos h.symm, h]
    rfl
  · rw [if_neg h, if_neg (Ne.symm h)]

theorem get?_remove (g : Globals) (name other : String) :
    (g.remove name).2.get? other = if other = name then none else g.get? other := by
  simp only [get?, remove, Std.TreeMap.getElem?_erase, Std.LawfulEqCmp.compare_eq_iff_eq]
  by_cases h : other = name
  · rw [if_pos h, if_pos h.symm]
    rfl
  · rw [if_neg h, if_neg (Ne.symm h)]

@[simp] theorem cell_name (g : Globals) (name : String) : (g.cell name).name = name := by
  unfold cell get?
  cases g.names[name]? <;> rfl

@[simp] theorem get?_set (cell : CellRef) (value : Value) : (g.set cell value).get? = g.get? := rfl

/-! ## Values -/

theorem value?_bindFresh (g : Globals) (name : String) (value : Option Value) (cell : CellRef) :
    (g.bindFresh name value).value? cell =
      if cell.id = g.cells.size then value else g.value? cell := by
  simp only [value?, bindFresh, Array.getElem?_push]
  split <;> rfl

theorem lookup?_bindFresh_self (g : Globals) (name : String) (value : Option Value) :
    (g.bindFresh name value).lookup? name = value := by
  simp [lookup?, get?_bindFresh, value?_bindFresh, nextCell]

@[simp] theorem lookup?_remove_self (g : Globals) (name : String) :
    (g.remove name).2.lookup? name = none := by
  simp [lookup?, get?_remove]

/-- A name with a value has a cell. -/
theorem cell_of_lookup? {value : Value} (h : g.lookup? name = some value) :
    g.value? (g.cell name) = some value ∧ g.ensure name = g := by
  unfold lookup? at h
  cases hget : g.get? name with
  | none => simp [hget] at h
  | some cell =>
      rw [hget, Option.bind_some] at h
      exact ⟨by simp [Globals.cell, hget, h], by simp [ensure, contains, hget]⟩

/-! ## Cells belong to names -/

/-- Every name stands for a cell that was made for it. -/
def Named (g : Globals) : Prop :=
  ∀ name cell, g.get? name = some cell → ∃ c, g.cells[cell.id]? = some c ∧ c.name = name

theorem Named.empty : Named .empty := by
  intro name cell h
  simp [get?, Globals.empty] at h

theorem Named.bindFresh (h : g.Named) (name : String) (value : Option Value) :
    (g.bindFresh name value).Named := by
  intro other cell hcell
  rw [get?_bindFresh] at hcell
  split at hcell
  · rename_i heq
    cases hcell
    exact ⟨⟨name, value, false⟩, by simp [Globals.bindFresh, nextCell], heq.symm⟩
  · obtain ⟨c, hc, hcname⟩ := h other cell hcell
    refine ⟨c, ?_, hcname⟩
    have hsize := (Array.getElem?_eq_some_iff.1 hc).1
    simp only [Globals.bindFresh, Array.getElem?_push]
    rw [if_neg (by omega), hc]

theorem Named.ensure (h : g.Named) (name : String) : (g.ensure name).Named := by
  unfold Globals.ensure
  split
  · exact h
  · exact h.bindFresh name none

theorem Named.set (h : g.Named) (cell : CellRef) (value : Value) : (g.set cell value).Named := by
  intro name other hother
  obtain ⟨c, hc, hcname⟩ := h name other hother
  simp only [Globals.set, Array.getElem?_modify, hc, Option.map_some]
  split
  · exact ⟨_, rfl, hcname⟩
  · exact ⟨_, rfl, hcname⟩

theorem Named.remove (h : g.Named) (name : String) : (g.remove name).2.Named := by
  intro other cell hcell
  rw [get?_remove] at hcell
  split at hcell
  · cases hcell
  · exact h other cell hcell

/-! ## Untouched names -/

/-- No cell of a name was ever written in place. -/
def Untouched (g : Globals) (name : String) : Prop :=
  ∀ c ∈ g.cells, c.name = name → c.written = false

instance : Decidable (g.Untouched name) :=
  inferInstanceAs (Decidable (∀ c ∈ g.cells, c.name = name → c.written = false))

theorem Untouched.of_bindFresh {value : Option Value}
    (h : (g.bindFresh other value).Untouched name) :
    g.Untouched name :=
  fun c hc => h c (Array.mem_push_of_mem _ hc)

/-- A fresh cell has not been written in place. -/
theorem Untouched.bindFresh (h : g.Untouched name) (other : String) (value : Option Value) :
    (g.bindFresh other value).Untouched name := by
  intro c hc hname
  rcases Array.mem_push.1 hc with hold | rfl
  · exact h c hold hname
  · rfl

theorem Untouched.of_ensure (h : (g.ensure other).Untouched name) : g.Untouched name := by
  unfold ensure at h
  split at h
  · exact h
  · exact h.of_bindFresh

/-- A write that leaves a name untouched is a write to another cell. -/
theorem Untouched.of_set {cell : CellRef} {value : Value} (h : (g.set cell value).Untouched name) :
    g.Untouched name ∧ ∀ c, g.cells[cell.id]? = some c → c.name ≠ name := by
  have hwritten : ∀ (i : Nat) (c : Cell), (g.set cell value).cells[i]? = some c → c.name = name →
      c.written = false := fun i c hc => h c (Array.mem_of_getElem? hc)
  simp only [set, Array.getElem?_modify] at hwritten
  have hother : ∀ c, g.cells[cell.id]? = some c → c.name ≠ name := by
    intro c hc hname
    have := hwritten cell.id { c with value := some value, written := true } (by simp [hc]) hname
    cases this
  refine ⟨fun c hc hname => ?_, hother⟩
  obtain ⟨i, hi⟩ := Array.mem_iff_getElem?.1 hc
  by_cases heq : cell.id = i
  · exact absurd hname (hother c (heq ▸ hi))
  · exact hwritten i c (by rw [if_neg heq, hi]) hname

/-- A write to another cell leaves the value of a name. -/
theorem lookup?_set (hg : g.Named) {cell : CellRef} {value : Value}
    (h : ∀ c, g.cells[cell.id]? = some c → c.name ≠ name) :
    (g.set cell value).lookup? name = g.lookup? name := by
  simp only [lookup?, get?_set]
  cases hget : g.get? name with
  | none => rfl
  | some own =>
      obtain ⟨c, hc, hname⟩ := hg name own hget
      have hne : cell.id ≠ own.id := fun heq => h c (heq ▸ hc) hname
      simp [value?, set, Array.getElem?_modify, hne]

theorem lookup?_bindFresh (hg : g.Named) (value : Option Value) (h : name ≠ other) :
    (g.bindFresh other value).lookup? name = g.lookup? name := by
  simp only [lookup?, get?_bindFresh, if_neg h]
  cases hget : g.get? name with
  | none => rfl
  | some own =>
      obtain ⟨c, hc, _⟩ := hg name own hget
      have hsize := (Array.getElem?_eq_some_iff.1 hc).1
      simp only [Option.bind_some, value?_bindFresh]
      rw [if_neg (by omega)]

/-- Making a cell for a name that has none gives no name a value. -/
theorem lookup?_ensure (hg : g.Named) (name other : String) :
    (g.ensure other).lookup? name = g.lookup? name := by
  unfold ensure
  split
  · rfl
  · rename_i hother
    by_cases h : name = other
    · subst h
      have : g.get? name = none := by simpa [contains] using hother
      rw [lookup?_bindFresh_self, lookup?, this]
      rfl
    · exact lookup?_bindFresh hg none h

theorem lookup?_remove (h : name ≠ other) : (g.remove other).2.lookup? name = g.lookup? name := by
  simp only [lookup?, get?_remove, if_neg h]
  rfl

end TwoPhase.Globals
