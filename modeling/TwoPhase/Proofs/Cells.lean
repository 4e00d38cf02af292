import TwoPhase.Proofs.Globals

/-!
# The cells behind names

A cell is handed out to whoever asks for its name, and outlives its name: the name may be bound to
a fresh cell, or to none, while the old one is still held.  A name that is not bound afresh goes on
to stand for the same cell.

What a cell holds is the last value written to it.  It is written by a definition of its name while
the name stands for it, and by whoever holds it, and by nothing else (`written?`).  So a cell that
no name stands for any more is left to its holders.
-/

namespace TwoPhase.Globals

variable {g : Globals} {name other : String} {cell c d : CellRef}

/-! ## What the operations do -/

/-- The name that a cell was made for. -/
def owner? (g : Globals) (cell : CellRef) : Option String := (g.cells[cell.id]?).map (·.name)

/-- A cell that has been made, under the name that it was made for. -/
def Made (g : Globals) (cell : CellRef) : Prop := g.owner? cell = some cell.name

theorem owner?_lt (h : g.owner? cell = some name) : cell.id < g.cells.size := by
  obtain ⟨_, hcell, -⟩ := Option.map_eq_some_iff.1 h
  exact (Array.getElem?_eq_some_iff.1 hcell).1

theorem name_of_get? (h : g.get? name = some cell) : cell.name = name := by
  obtain ⟨id, -, rfl⟩ := Option.map_eq_some_iff.1 h
  rfl

/-- There is one cell for a number. -/
theorem Made.eq (hc : g.Made c) (hd : g.Made d) (hid : c.id = d.id) : c = d := by
  have hname : c.name = d.name := by
    rw [Made, Globals.owner?] at hc hd
    rw [hid, hd] at hc
    exact (Option.some.inj hc).symm
  obtain ⟨cid, cname⟩ := c
  obtain ⟨did, dname⟩ := d
  cases hid
  cases hname
  rfl

theorem Named.made (h : g.Named) (hget : g.get? name = some cell) : g.Made cell := by
  obtain ⟨own, hown, hname⟩ := h name cell hget
  exact Option.map_eq_some_iff.2 ⟨own, hown, hname.trans (name_of_get? hget).symm⟩

theorem owner?_bindFresh (h : cell.id < g.cells.size) (name : String) (value : Option Value) :
    (g.bindFresh name value).owner? cell = g.owner? cell := by
  simp only [owner?, bindFresh, Array.getElem?_push, if_neg (Nat.ne_of_lt h)]

theorem owner?_ensure (h : cell.id < g.cells.size) (name : String) :
    (g.ensure name).owner? cell = g.owner? cell := by
  unfold ensure
  split
  · rfl
  · exact owner?_bindFresh h name none

@[simp] theorem owner?_set (g : Globals) (c cell : CellRef) (value : Value) :
    (g.set c value).owner? cell = g.owner? cell := by
  simp only [owner?, set, Array.getElem?_modify]
  split
  · cases g.cells[cell.id]? <;> rfl
  · rfl

theorem get?_ensure (g : Globals) (name other : String) :
    (g.ensure name).get? other = if other = name then some (g.cell name) else g.get? other := by
  unfold ensure contains cell
  cases hget : g.get? name with
  | none => exact g.get?_bindFresh name other none
  | some own =>
      by_cases h : other = name
      · simp [h, hget]
      · simp [h]

/-- A cell that is only made holds nothing. -/
theorem value?_ensure (g : Globals) (name : String) : (g.ensure name).value? = g.value? := by
  funext cell
  unfold ensure
  split
  · rfl
  · rw [value?_bindFresh]
    split
    · rename_i hid
      simp [value?, hid]
    · rfl

theorem value?_set (h : c.id < g.cells.size) (value : Value) (cell : CellRef) :
    (g.set c value).value? cell = if cell.id = c.id then some value else g.value? cell := by
  simp only [value?, set, Array.getElem?_modify]
  by_cases hid : cell.id = c.id
  · simp [hid, Array.getElem?_eq_getElem h]
  · simp [hid, Ne.symm hid]

theorem Named.made_cell (h : g.Named) (name : String) : (g.ensure name).Made (g.cell name) :=
  (h.ensure name).made (by rw [get?_ensure, if_pos rfl])

theorem value?_define (h : g.Named) (name : String) (value : Value) (cell : CellRef) :
    (g.define name value).value? cell
      = if cell.id = (g.cell name).id then some value else g.value? cell := by
  rw [define, value?_set (owner?_lt (h.made_cell name)), value?_ensure]

/-! ## Commands -/

/-- Globals, and the cells that were handed out, in order. -/
structure Held where
  globals : Globals
  cells : List CellRef

inductive Command where
  | resolve (name : String)
  | get (name : String)
  | define (name : String) (value : Value)
  | replace (name : String) (value : Value)
  | remove (name : String)
  /-- Writes a cell that was handed out. -/
  | set (slot : Nat) (value : Value)

namespace Command

/-- The name that a command is about. -/
def name? : Command → Option String
  | resolve name | get name | define name _ | replace name _ | remove name => some name
  | set .. => none

/-- The name that a command takes from its cell. -/
def detached? : Command → Option String
  | replace name _ | remove name => some name
  | _ => none

end Command

inductive Answer where
  | cell (cell : Option CellRef)
  | previous (value : Option Value)

/-- The cell that was handed out. -/
def Answer.cell? : Answer → Option CellRef
  | .cell cell => cell
  | .previous _ => none

namespace Held

def initial : Held := ⟨.empty, []⟩

/-- Hands a cell out. -/
def hand (h : Held) (cell : Option CellRef) (globals : Globals) : Answer × Held :=
  (.cell cell, ⟨globals, h.cells ++ cell.toList⟩)

def perform (h : Held) : Command → Answer × Held
  | .resolve name => h.hand (some (h.globals.cell name)) (h.globals.ensure name)
  | .get name => h.hand (h.globals.get? name) h.globals
  | .define name value =>
    (.previous (h.globals.lookup? name), { h with globals := h.globals.define name value })
  | .replace name value =>
    let (cell, globals) := h.globals.replace name value
    h.hand cell globals
  | .remove name =>
    let (cell, globals) := h.globals.remove name
    h.hand cell globals
  | .set slot value =>
    match h.cells[slot]? with
    | none => (.previous none, h)
    | some cell =>
      (.previous (h.globals.value? cell), { h with globals := h.globals.set cell value })

/-- What there is after commands performed in turn. -/
def performAll (h : Held) : List Command → Held
  | [] => h
  | command :: commands => (h.perform command).2.performAll commands

/-- The cell that a command hands out for a name. -/
def obtained? (h : Held) (name : String) (command : Command) : Option CellRef :=
  if command.name? = some name then (h.perform command).1.cell? else none

/-- The cells that commands hand out for a name, in turn. -/
def obtained (h : Held) (name : String) : List Command → List CellRef
  | [] => []
  | command :: commands =>
    (h.obtained? name command).toList ++ (h.perform command).2.obtained name commands

/-- The value that a command writes to a cell by way of a holder. -/
def setting? (h : Held) (cell : CellRef) : Command → Option Value
  | .set slot value => if h.cells[slot]? = some cell then some value else none
  | _ => none

/-- The values that commands write to a cell by way of a holder, in turn. -/
def settings (h : Held) (cell : CellRef) : List Command → List Value
  | [] => []
  | command :: commands =>
    (h.setting? cell command).toList ++ (h.perform command).2.settings cell commands

/-- The value that a command writes to a cell. -/
def written? (h : Held) (cell : CellRef) : Command → Option Value
  | .define name value => if h.globals.get? name = some cell then some value else none
  | command => h.setting? cell command

theorem written?_define (h : Held) (cell : CellRef) (name : String) (value : Value) :
    h.written? cell (.define name value)
      = if h.globals.get? name = some cell then some value else none := rfl

theorem written?_set (h : Held) (cell : CellRef) (slot : Nat) (value : Value) :
    h.written? cell (.set slot value) = if h.cells[slot]? = some cell then some value else none :=
  rfl

/-! ## What all commands keep -/

/-- Names and holders have cells, and know the names that these were made for. -/
structure Sound (h : Held) : Prop where
  named : h.globals.Named
  held : ∀ cell ∈ h.cells, h.globals.Made cell

variable {h : Held} {command : Command}

theorem Sound.initial : Held.initial.Sound := ⟨.empty, by simp [Held.initial]⟩

/-- A cell stays the cell of the name that it was made for. -/
theorem made_perform (hcell : h.globals.Made cell) (command : Command) :
    (h.perform command).2.globals.Made cell := by
  have hlt := owner?_lt hcell
  cases command with
  | resolve other => exact (owner?_ensure hlt other).trans hcell
  | get other => exact hcell
  | define other value =>
      exact (owner?_set _ _ _ value).trans ((owner?_ensure hlt other).trans hcell)
  | replace other value => exact (owner?_bindFresh hlt other (some value)).trans hcell
  | remove other => exact hcell
  | set slot value =>
      simp only [perform]
      split
      · exact hcell
      · exact (owner?_set _ _ _ value).trans hcell

theorem Sound.named_perform (hsound : h.Sound) (command : Command) :
    (h.perform command).2.globals.Named := by
  cases command with
  | resolve name => exact hsound.named.ensure name
  | get name => exact hsound.named
  | define name value => exact (hsound.named.ensure name).set _ value
  | replace name value => exact hsound.named.bindFresh name (some value)
  | remove name => exact hsound.named.remove name
  | set slot value =>
      simp only [Held.perform]
      split
      · exact hsound.named
      · exact hsound.named.set _ value

theorem Sound.handed (hsound : h.Sound) (hcell : (h.perform command).1.cell? = some cell) :
    (h.perform command).2.globals.Made cell := by
  have hold : ∀ {name}, h.globals.get? name = some cell →
      (h.perform command).2.globals.Made cell :=
    fun hget => made_perform (hsound.named.made hget) command
  cases command with
  | resolve name =>
      cases hcell
      exact hsound.named.made_cell name
  | get name => exact hold hcell
  | replace name value => exact hold hcell
  | remove name => exact hold hcell
  | define name value => cases hcell
  | set slot value =>
      simp only [Held.perform] at hcell
      split at hcell <;> cases hcell

theorem cells_perform (h : Held) (command : Command) :
    (h.perform command).2.cells = h.cells ++ (h.perform command).1.cell?.toList := by
  cases command with
  | set slot value =>
      simp only [perform]
      split <;> simp [Answer.cell?]
  | define name value => simp [perform, Answer.cell?]
  | resolve | get | replace | remove => rfl

theorem Sound.perform (hsound : h.Sound) (command : Command) : (h.perform command).2.Sound := by
  refine ⟨hsound.named_perform command, fun cell hcell => ?_⟩
  rw [cells_perform, List.mem_append, Option.mem_toList] at hcell
  rcases hcell with hold | hnew
  · exact made_perform (hsound.held cell hold) command
  · exact hsound.handed hnew

theorem Sound.performAll (hsound : h.Sound) (commands : List Command) :
    (h.performAll commands).Sound := by
  induction commands generalizing h with
  | nil => exact hsound
  | cons command commands ih => exact ih (hsound.perform command)

/-! ## Attached cells -/

/-- A command about another name, or about none, leaves a name with its cell. -/
theorem get?_perform_ne (hname : command.name? ≠ some name) :
    (h.perform command).2.globals.get? name = h.globals.get? name := by
  cases command with
  | resolve other | define other value =>
      have hne : name ≠ other := fun heq => hname (congrArg some heq.symm)
      exact (get?_ensure h.globals other name).trans (if_neg hne)
  | get other => rfl
  | replace other value =>
      have hne : name ≠ other := fun heq => hname (congrArg some heq.symm)
      exact (get?_bindFresh h.globals other name _).trans (if_neg hne)
  | remove other =>
      have hne : name ≠ other := fun heq => hname (congrArg some heq.symm)
      exact (get?_remove h.globals other name).trans (if_neg hne)
  | set slot value =>
      simp only [perform]
      split <;> rfl

/-- A name that is not bound afresh keeps its cell. -/
theorem get?_perform (hget : h.globals.get? name = some cell)
    (hkeeps : command.detached? ≠ some name) :
    (h.perform command).2.globals.get? name = some cell := by
  by_cases hname : command.name? = some name
  · cases command with
    | resolve other | define other value =>
        cases hname
        refine (get?_ensure h.globals name name).trans ?_
        simp [Globals.cell, hget]
    | get other => exact hget
    | replace | remove => exact absurd hname hkeeps
    | set slot value => cases hname
  · exact (get?_perform_ne hname).trans hget

theorem get?_performAll (hget : h.globals.get? name = some cell) {commands : List Command}
    (hkeeps : ∀ command ∈ commands, command.detached? ≠ some name) :
    (h.performAll commands).globals.get? name = some cell := by
  induction commands generalizing h with
  | nil => exact hget
  | cons command commands ih =>
      exact ih (get?_perform hget (hkeeps command List.mem_cons_self))
        fun other hother => hkeeps other (List.mem_cons_of_mem _ hother)

/-- If a name has a cell, that is what is handed out for it. -/
theorem obtained?_of_get? (hget : h.globals.get? name = some cell)
    (hc : h.obtained? name command = some c) : c = cell := by
  obtain ⟨hname, hcell⟩ := Option.ite_none_right_eq_some.1 hc
  cases command with
  | resolve other =>
      cases hname
      cases hcell
      simp [Globals.cell, hget]
  | get other | replace other | remove other =>
      cases hname
      exact Option.some.inj (hcell.symm.trans hget)
  | define other value => cases hcell
  | set slot value => cases hname

/-- What is handed out for a name is its cell afterwards, unless the command takes it away. -/
theorem get?_of_obtained? (hkeeps : command.detached? ≠ some name)
    (hc : h.obtained? name command = some c) :
    (h.perform command).2.globals.get? name = some c := by
  obtain ⟨hname, hcell⟩ := Option.ite_none_right_eq_some.1 hc
  cases command with
  | resolve other =>
      cases hname
      cases hcell
      exact (get?_ensure h.globals name name).trans (if_pos rfl)
  | get other =>
      cases hname
      exact hcell
  | replace | remove => exact absurd hname hkeeps
  | define other value => cases hcell
  | set slot value => cases hname

section Between

variable {during : List Command}

/-- Between two bindings of a name, the cells handed out for it are its cell in the end. -/
theorem get?_of_obtained (hkeeps : ∀ command ∈ during, command.detached? ≠ some name)
    (hc : c ∈ h.obtained name during) : (h.performAll during).globals.get? name = some c := by
  induction during generalizing h with
  | nil => cases hc
  | cons command during ih =>
      have hrest : ∀ other ∈ during, other.detached? ≠ some name :=
        fun other hother => hkeeps other (List.mem_cons_of_mem _ hother)
      rcases List.mem_append.1 hc with hfirst | hlater
      · have hget := get?_of_obtained? (hkeeps command List.mem_cons_self)
          (Option.mem_toList.1 hfirst)
        exact get?_performAll hget hrest
      · exact ih hrest hlater

/-- What ends that time hands out the same cell. -/
theorem obtained_of_last {last : Command}
    (hkeeps : ∀ command ∈ during, command.detached? ≠ some name)
    (hc : c ∈ h.obtained name during) (hd : d ∈ h.obtained name (during ++ [last])) : d = c := by
  have hget := get?_of_obtained hkeeps hc
  have hsplit : ∀ {k : Held} {commands : List Command},
      k.obtained name (commands ++ [last])
        = k.obtained name commands ++ ((k.performAll commands).obtained? name last).toList := by
    intro k commands
    induction commands generalizing k with
    | nil => simp [obtained, performAll]
    | cons command commands ih => simp [obtained, performAll, ih]
  rw [hsplit, List.mem_append, Option.mem_toList] at hd
  rcases hd with hold | hlast
  · exact Option.some.inj ((get?_of_obtained hkeeps hold).symm.trans hget)
  · exact obtained?_of_get? hget hlast

end Between

/-! ## Values -/

/-- A definition of a name writes the cell that it stands for. -/
theorem id_eq_cell_iff (hnamed : g.Named) (hcell : g.Made cell) (name : String) :
    cell.id = (g.cell name).id ↔ g.get? name = some cell := by
  cases hget : g.get? name with
  | none =>
      have hlt := owner?_lt hcell
      have hnext : (g.cell name).id = g.cells.size := by simp [Globals.cell, hget, nextCell]
      simp only [hnext, reduceCtorEq, iff_false]
      omega
  | some own =>
      have hown : g.cell name = own := by simp [Globals.cell, hget]
      rw [hown, Option.some_inj]
      exact ⟨fun hid => (hnamed.made hget).eq hcell hid.symm, fun heq => congrArg (·.id) heq.symm⟩

/-- A cell holds what a command writes to it, or else what it held. -/
theorem Sound.value?_perform (hsound : h.Sound) (hcell : h.globals.Made cell) (command : Command) :
    (h.perform command).2.globals.value? cell
      = (h.written? cell command).or (h.globals.value? cell) := by
  have hlt := owner?_lt hcell
  cases command with
  | resolve name => exact congrFun (value?_ensure h.globals name) cell
  | get name => rfl
  | define name value =>
      refine (value?_define hsound.named name value cell).trans ?_
      simp only [id_eq_cell_iff hsound.named hcell name, written?_define]
      split <;> rfl
  | replace name value =>
      exact (value?_bindFresh h.globals name _ cell).trans (if_neg (Nat.ne_of_lt hlt))
  | remove name => rfl
  | set slot value =>
      simp only [Held.perform, written?_set]
      cases hslot : h.cells[slot]? with
      | none => rfl
      | some own =>
          have hown := hsound.held own (List.mem_of_getElem? hslot)
          have hiff : cell.id = own.id ↔ some own = some cell := by
            rw [Option.some_inj]
            exact ⟨fun hid => hown.eq hcell hid.symm, fun heq => congrArg (·.id) heq.symm⟩
          simp only [value?_set (owner?_lt hown), hiff]
          split <;> rfl

/-- A command about a name writes no cell of another. -/
theorem written?_of_name_ne (hname : command.name? = some name) (hne : cell.name ≠ name) :
    h.written? cell command = none := by
  cases command with
  | define other value =>
      cases hname
      exact if_neg fun hget => hne (name_of_get? hget)
  | resolve | get | replace | remove => rfl
  | set slot value => cases hname

/-! ## Detached cells -/

/-- No name stands for the cell. -/
def Detached (h : Held) (cell : CellRef) : Prop := ∀ name, h.globals.get? name ≠ some cell

/-- A name that is bound afresh leaves its cell detached. -/
theorem detached_of_get? (hcell : h.globals.Made cell) (hget : h.globals.get? name = some cell)
    (hdetached : command.detached? = some name) : (h.perform command).2.Detached cell := by
  intro other hother
  have hname : other = name := (name_of_get? hother).symm.trans (name_of_get? hget)
  cases command with
  | replace own value =>
      cases hdetached
      have hfresh : h.globals.nextCell name = cell := by
        have hbound := (get?_bindFresh h.globals name other (some value)).symm.trans hother
        rwa [if_pos hname, Option.some_inj] at hbound
      exact Nat.lt_irrefl _ (hfresh ▸ owner?_lt hcell)
  | remove own =>
      cases hdetached
      have hnone := (get?_remove h.globals name other).symm.trans hother
      rw [if_pos hname] at hnone
      cases hnone
  | resolve | get | define | set => cases hdetached

/-- A cell that no name stands for is never bound to a name again. -/
theorem Detached.perform (hdetached : h.Detached cell) (hcell : h.globals.Made cell)
    (command : Command) : (h.perform command).2.Detached cell := by
  have hfresh : ∀ name, h.globals.nextCell name ≠ cell := fun name heq =>
    Nat.lt_irrefl _ (heq ▸ owner?_lt hcell)
  intro other hother
  cases command with
  | resolve name | define name value =>
      have hensured := (get?_ensure h.globals name other).symm.trans hother
      split at hensured
      · rw [Globals.cell, Option.some_inj] at hensured
        cases hget : h.globals.get? name with
        | none =>
            rw [hget] at hensured
            exact hfresh name hensured
        | some own =>
            rw [hget] at hensured
            exact hdetached name (hget.trans (congrArg some hensured))
      · exact hdetached other hensured
  | get name => exact hdetached other hother
  | replace name value =>
      have hbound := (get?_bindFresh h.globals name other (some value)).symm.trans hother
      split at hbound
      · exact hfresh name (Option.some.inj hbound)
      · exact hdetached other hbound
  | remove name =>
      have hleft := (get?_remove h.globals name other).symm.trans hother
      split at hleft
      · cases hleft
      · exact hdetached other hleft
  | set slot value =>
      have hsame : (h.perform (.set slot value)).2.globals.get? other = h.globals.get? other :=
        get?_perform_ne (Option.some_ne_none other).symm
      exact hdetached other (hsame.symm.trans hother)

/-- Only its holders write a detached cell. -/
theorem Detached.written? (hdetached : h.Detached cell) (command : Command) :
    h.written? cell command = h.setting? cell command := by
  cases command with
  | define name value => exact if_neg (hdetached name)
  | resolve | get | replace | remove | set => rfl

/-- A detached cell holds the last value that a holder gave it, or else what it held, and stays
detached. -/
theorem Detached.value?_performAll (hdetached : h.Detached cell) (hsound : h.Sound)
    (hcell : h.globals.Made cell) (commands : List Command) :
    (h.performAll commands).globals.value? cell
        = ((h.settings cell commands).getLast?).or (h.globals.value? cell) ∧
      (h.performAll commands).Detached cell := by
  induction commands generalizing h with
  | nil => exact ⟨rfl, hdetached⟩
  | cons command commands ih =>
      obtain ⟨hvalue, hlast⟩ := ih (hdetached.perform hcell command) (hsound.perform command)
        (made_perform hcell command)
      refine ⟨hvalue.trans ?_, hlast⟩
      rw [hsound.value?_perform hcell command, hdetached.written?, settings, List.getLast?_append,
        Option.or_assoc]
      congr 1
      cases h.setting? cell command <;> rfl

end Held

/-! ## The main statement -/

/-- Whatever was done to globals and to the cells handed out: a name stands for at most one cell,
made under that name, and no two names stand for one cell.  As long as a name is not bound afresh,
one cell is handed out for it, and a definition of the name, or a write by whoever holds the cell,
shows in all that were handed out.  A cell that its name was taken from holds what it held, or what
its holders gave it last, and no name stands for it again.  A command about a name leaves the other
names with their cells, and all cells of other names as they are; a write by a holder changes no
other cell. -/
theorem cells_shared_until_detached (commands : List Command) :
    let h := Held.initial.performAll commands
    ((∀ name cell, h.globals.get? name = some cell →
        cell.name = name ∧ h.globals.owner? cell = some name) ∧
      (∀ cell ∈ h.cells, h.globals.owner? cell = some cell.name) ∧
      ∀ a b c d, h.globals.get? a = some c → h.globals.get? b = some d → c.id = d.id → a = b) ∧
    (∀ name during, (∀ command ∈ during, command.detached? ≠ some name) →
      ∀ c ∈ h.obtained name during,
        (∀ last, ∀ d ∈ h.obtained name (during ++ [last]), d = c) ∧
        (∀ value, ((h.performAll during).perform (.define name value)).2.globals.value? c
          = some value) ∧
        ∀ slot value, (h.performAll during).cells[slot]? = some c →
          ∀ d ∈ h.obtained name during,
            ((h.performAll during).perform (.set slot value)).2.globals.value? d = some value) ∧
    (∀ name cell command later, h.globals.get? name = some cell → command.detached? = some name →
      let after := (h.perform command).2
      (after.performAll later).globals.value? cell
          = ((after.settings cell later).getLast?).or (h.globals.value? cell) ∧
        ∀ other, (after.performAll later).globals.get? other ≠ some cell) ∧
    (∀ name command, command.name? = some name →
      (∀ other, other ≠ name →
        (h.perform command).2.globals.get? other = h.globals.get? other) ∧
      ∀ cell, h.globals.owner? cell = some cell.name → cell.name ≠ name →
        (h.perform command).2.globals.value? cell = h.globals.value? cell) ∧
    ∀ slot value, (∀ name, (h.perform (.set slot value)).2.globals.get? name
        = h.globals.get? name) ∧
      ∀ cell, h.globals.owner? cell = some cell.name → h.cells[slot]? ≠ some cell →
        (h.perform (.set slot value)).2.globals.value? cell = h.globals.value? cell := by
  intro h
  have hsound : h.Sound := Held.Sound.initial.performAll commands
  refine ⟨⟨fun name cell hget => ?_, hsound.held, fun a b c d hc hd hid => ?_⟩,
    fun name during hkeeps c hc => ?_, fun name cell command later hget hdetached => ?_,
    fun name command hname => ⟨fun other hne => ?_, fun cell hcell hne => ?_⟩,
    fun slot value => ⟨fun name => Held.get?_perform_ne (Option.some_ne_none name).symm,
      fun cell hcell hne => ?_⟩⟩
  · have hname := name_of_get? hget
    exact ⟨hname, hname ▸ hsound.named.made hget⟩
  · rw [← name_of_get? hc, ← name_of_get? hd, (hsound.named.made hc).eq (hsound.named.made hd) hid]
  · have hget := Held.get?_of_obtained hkeeps hc
    have hduring := hsound.performAll during
    have hmade := hduring.named.made hget
    refine ⟨fun last d hd => Held.obtained_of_last hkeeps hc hd, fun value => ?_,
      fun slot value hslot d hd => ?_⟩
    · rw [hduring.value?_perform hmade, Held.written?_define, if_pos hget, Option.some_or]
    · have hsame : d = c :=
        Option.some.inj ((Held.get?_of_obtained hkeeps hd).symm.trans hget)
      rw [hsame, hduring.value?_perform hmade, Held.written?_set, if_pos hslot, Option.some_or]
  · have hmade := hsound.named.made hget
    have hfrom := Held.detached_of_get? hmade hget hdetached
    have hvalue := hsound.value?_perform hmade command
    have hnone : h.written? cell command = none := by
      cases command with
      | replace | remove => rfl
      | resolve | get | define | set => cases hdetached
    rw [hnone, Option.none_or] at hvalue
    rw [← hvalue]
    exact hfrom.value?_performAll (hsound.perform command) (Held.made_perform hmade command) later
  · refine Held.get?_perform_ne fun heq => hne ?_
    exact Option.some.inj (heq.symm.trans hname)
  · rw [hsound.value?_perform hcell, Held.written?_of_name_ne hname hne, Option.none_or]
  · rw [hsound.value?_perform hcell, Held.written?_set, if_neg hne, Option.none_or]

end TwoPhase.Globals
