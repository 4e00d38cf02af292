import Mathlib.Data.List.Induction
import TwoPhase.Deferral.Pending

/-!
# Slots

What each operation on pending hooks does to the slots and to the hook lists.  Everything is said in
terms of `dispatchAt?` and `hooks`; how the slots are laid out in their array shows nowhere else.
-/

namespace TwoPhase.Pending

variable {B : Type} {p : Pending B} {depth : Nat}

/-! ## The array -/

/-- Places dropped from the end were empty. -/
theorem getElem?_trim (slots : Array (Option DispatchFn)) (k : Nat) :
    (trim slots)[k]?.join = slots[k]?.join := by
  obtain ⟨slots⟩ := slots
  rw [trim, List.popWhile_toArray]
  simp only [List.getElem?_toArray]
  induction slots using List.reverseRecOn with
  | nil => rfl
  | append_singleton slots last ih =>
      cases last with
      | some fn => simp
      | none =>
          simp only [List.reverse_append, List.reverse_singleton, List.singleton_append,
            List.dropWhile_cons, Option.isNone_none, if_true, ih]
          rw [List.getElem?_append]
          split
          · rfl
          · rename_i hk
            rw [List.getElem?_eq_none (by omega)]
            rcases Nat.lt_or_ge (k - slots.length) 1 with h | h
            · simp [Nat.lt_one_iff.1 h]
            · rw [List.getElem?_eq_none (by simpa using h)]

theorem dispatchAt?_eq_none_of_size_le {k : Nat} (h : p.slots.size ≤ k) :
    p.dispatchAt? k = none := by
  simp [dispatchAt?, Array.getElem?_eq_none h]

/-- A deeper start finds nothing more where the slots in between are empty. -/
theorem deepest?_eq_of_le {m n : Nat} (hmn : m ≤ n)
    (h : ∀ k, m < k → k ≤ n → p.dispatchAt? k = none) : p.deepest? n = p.deepest? m := by
  induction n with
  | zero => rw [Nat.le_zero.1 hmn]
  | succ n ih =>
      rcases Nat.lt_or_ge n m with hlt | hle
      · rw [Nat.le_antisymm hmn hlt]
      · rw [deepest?, h (n + 1) (by omega) (by omega)]
        exact ih hle fun k hk hkn => h k hk (by omega)

theorem nearest?_eq_deepest? (p : Pending B) (depth : Nat) : p.nearest? depth = p.deepest? depth :=
  (deepest?_eq_of_le (Nat.min_le_left _ _) fun k hk hkd =>
    dispatchAt?_eq_none_of_size_le (by omega)).symm

theorem deepest?_congr {q : Pending B} {n : Nat}
    (h : ∀ k, 0 < k → k ≤ n → q.dispatchAt? k = p.dispatchAt? k) : q.deepest? n = p.deepest? n := by
  induction n with
  | zero => rfl
  | succ n ih =>
      rw [deepest?, deepest?, h (n + 1) (by omega) (by omega),
        ih fun k hk hkn => h k hk (by omega)]

/-- The nearest slot depends on the slots that are looked at only. -/
theorem nearest?_congr {q : Pending B} {n : Nat}
    (h : ∀ k, 0 < k → k ≤ n → q.dispatchAt? k = p.dispatchAt? k) : q.nearest? n = p.nearest? n := by
  rw [nearest?_eq_deepest?, nearest?_eq_deepest?, deepest?_congr h]

/-- The nearest slot is pending, and no slot between it and the start is. -/
theorem nearest?_spec {n : Nat} {fn : DispatchFn} (h : p.nearest? n = some fn) :
    ∃ k, 0 < k ∧ k ≤ n ∧ p.dispatchAt? k = some fn ∧
      ∀ j, k < j → j ≤ n → p.dispatchAt? j = none := by
  rw [nearest?_eq_deepest?] at h
  induction n with
  | zero => simp [deepest?] at h
  | succ n ih =>
      rw [deepest?] at h
      cases hslot : p.dispatchAt? (n + 1) with
      | some other =>
          rw [hslot] at h
          exact ⟨n + 1, by omega, Nat.le_refl _, hslot.trans h, fun j hj hjn => by omega⟩
      | none =>
          rw [hslot] at h
          obtain ⟨k, hk, hkn, hfn, hbetween⟩ := ih h
          refine ⟨k, hk, by omega, hfn, fun j hj hjn => ?_⟩
          rcases Nat.lt_or_ge n j with hlt | hle
          · rwa [Nat.le_antisymm hjn hlt]
          · exact hbetween j hj hle

/-- With no slot in reach there is no nearest slot. -/
theorem nearest?_eq_none {n : Nat} (h : p.nearest? n = none) {k : Nat} (hk : 0 < k)
    (hkn : k ≤ n) : p.dispatchAt? k = none := by
  rw [nearest?_eq_deepest?] at h
  induction n with
  | zero => omega
  | succ n ih =>
      rw [deepest?] at h
      cases hslot : p.dispatchAt? (n + 1) with
      | some other => simp [hslot] at h
      | none =>
          rw [hslot] at h
          rcases Nat.lt_or_ge n k with hlt | hle
          · rwa [Nat.le_antisymm hkn hlt]
          · exact ih h hle

/-! ## Adding -/

/-- The first hook at a depth opens a slot there. -/
theorem add_open (hook : Hook B) (hdepth : depth ≠ 0) (hslot : p.dispatchAt? depth = none) :
    (p.add depth hook).1 = .ok (.opened ⟨p.lists.size, depth⟩) := by
  simp [add, hdepth, hslot]

theorem dispatchAt?_add_open (hook : Hook B) (hdepth : depth ≠ 0)
    (hslot : p.dispatchAt? depth = none) (k : Nat) :
    (p.add depth hook).2.dispatchAt? k =
      if k = depth then some ⟨p.lists.size, depth⟩ else p.dispatchAt? k := by
  have hslots : (p.add depth hook).2.slots
      = (p.slots ++ Array.replicate (depth + 1 - p.slots.size) none).setIfInBounds depth
        (some ⟨p.lists.size, depth⟩) := by
    simp [add, hdepth, hslot]
  rw [dispatchAt?, hslots, dispatchAt?, Array.getElem?_setIfInBounds]
  by_cases hk : k = depth
  · subst hk
    have hsize : k < (p.slots ++ Array.replicate (k + 1 - p.slots.size) none).size := by
      rw [Array.size_append, Array.size_replicate]
      omega
    rw [if_pos rfl, if_pos hsize, if_pos rfl]
    rfl
  · rw [if_neg (Ne.symm hk), if_neg hk, Array.getElem?_append]
    split
    · rfl
    · rename_i hsize
      rw [Array.getElem?_replicate, Array.getElem?_eq_none (by omega)]
      split <;> rfl

theorem hooks_add_open (hook : Hook B) (hdepth : depth ≠ 0) (hslot : p.dispatchAt? depth = none)
    (fn : DispatchFn) :
    (p.add depth hook).2.hooks fn = if fn.list = p.lists.size then #[hook] else p.hooks fn := by
  simp only [add, hdepth, hslot, if_false, hooks, Array.getD_eq_getD_getElem?, Array.getElem?_push]
  split <;> rfl

theorem size_add_open (hook : Hook B) (hdepth : depth ≠ 0) (hslot : p.dispatchAt? depth = none) :
    (p.add depth hook).2.lists.size = p.lists.size + 1 := by
  simp [add, hdepth, hslot]

/-- Later hooks join the slot. -/
theorem add_join (hook : Hook B) {fn : DispatchFn} (hdepth : depth ≠ 0)
    (hslot : p.dispatchAt? depth = some fn) :
    p.add depth hook = (.ok .joined, { p with lists := p.lists.modify fn.list (·.push hook) }) := by
  simp [add, hdepth, hslot]

theorem hooks_modify (fn other : DispatchFn) (hook : Hook B) (hlist : fn.list < p.lists.size) :
    hooks { p with lists := p.lists.modify fn.list (·.push hook) } other =
      if other.list = fn.list then (p.hooks fn).push hook else p.hooks other := by
  simp only [hooks, Array.getD_eq_getD_getElem?, Array.getElem?_modify]
  by_cases h : other.list = fn.list
  · rw [if_pos h.symm, if_pos h, h, Array.getElem?_eq_getElem hlist]
    rfl
  · rw [if_neg (Ne.symm h), if_neg h]

/-- A hook added at one depth changes no slot of another. -/
theorem dispatchAt?_add_ne (hook : Hook B) {k : Nat} (hk : k ≠ depth) :
    (p.add depth hook).2.dispatchAt? k = p.dispatchAt? k := by
  by_cases hdepth : depth = 0
  · simp [add, hdepth]
  cases hslot : p.dispatchAt? depth with
  | none => rw [dispatchAt?_add_open hook hdepth hslot, if_neg hk]
  | some fn =>
      rw [add_join hook hdepth hslot]
      rfl

/-- Hook lists only grow. -/
theorem hooks_add_prefix (p : Pending B) (depth : Nat) (hook : Hook B) (fn : DispatchFn) :
    (p.hooks fn).toList <+: ((p.add depth hook).2.hooks fn).toList := by
  by_cases hdepth : depth = 0
  · simp only [add, hdepth, if_true]
    exact List.prefix_rfl
  cases hslot : p.dispatchAt? depth with
  | none =>
      rw [hooks_add_open hook hdepth hslot]
      split
      · rename_i hnew
        have hempty : p.hooks fn = #[] := by simp [hooks, hnew]
        rw [hempty]
        exact List.nil_prefix
      · exact List.prefix_rfl
  | some joined =>
      rw [add_join hook hdepth hslot]
      simp only [hooks, Array.getD_eq_getD_getElem?, Array.getElem?_modify]
      split
      · cases p.lists[fn.list]? with
        | none => exact List.nil_prefix
        | some hooks =>
            simp only [Option.map_some, Option.getD_some, Array.toList_push]
            exact List.prefix_append _ _
      · exact List.prefix_rfl

/-! ## Removing -/

/-- A cleared slot is gone, and the nearest shallower one takes its place. -/
theorem clear_of_slot {fn : DispatchFn} (hslot : p.dispatchAt? depth = some fn) :
    (p.clear depth).1 = .ok ((p.clear depth).2.nearest? (depth - 1)) := by
  simp [clear, hslot]

theorem clear_eq {fn : DispatchFn} (hslot : p.dispatchAt? depth = some fn) :
    p.clear depth = (.ok ((p.clear depth).2.nearest? (depth - 1)), (p.clear depth).2) :=
  Prod.ext (clear_of_slot hslot) rfl

theorem clear_of_none (hslot : p.dispatchAt? depth = none) :
    p.clear depth = (.error (.noSlot depth), p) := by
  simp [clear, hslot]

theorem dispatchAt?_clear (p : Pending B) (depth k : Nat) :
    (p.clear depth).2.dispatchAt? k = if k = depth then none else p.dispatchAt? k := by
  cases hslot : p.dispatchAt? depth with
  | none =>
      rw [clear_of_none hslot]
      split
      · rename_i hk
        rw [hk, hslot]
      · rfl
  | some fn =>
      have hslots : (p.clear depth).2.slots = trim (p.slots.setIfInBounds depth none) := by
        simp [clear, hslot]
      rw [dispatchAt?, hslots, getElem?_trim, Array.getElem?_setIfInBounds]
      by_cases hk : k = depth
      · subst hk
        rw [if_pos rfl, if_pos rfl]
        split <;> rfl
      · rw [if_neg (Ne.symm hk), if_neg hk]
        rfl

@[simp] theorem lists_clear (p : Pending B) (depth : Nat) : (p.clear depth).2.lists = p.lists := by
  unfold clear
  split <;> rfl

theorem dispatchAt?_unwindTo (p : Pending B) (depth k : Nat) :
    (p.unwindTo depth).2.dispatchAt? k = if k ≤ depth then p.dispatchAt? k else none := by
  simp only [unwindTo, dispatchAt?, getElem?_trim, Array.getElem?_extract]
  by_cases hk : k ≤ depth
  · rw [if_pos hk]
    split
    · simp
    · rw [Array.getElem?_eq_none (by omega)]
  · rw [if_neg hk, if_neg (by omega)]
    rfl

@[simp] theorem lists_unwindTo (p : Pending B) (depth : Nat) :
    (p.unwindTo depth).2.lists = p.lists := rfl

/-- Unwinding that removes nothing leaves every slot. -/
theorem dispatchAt?_unwindTo_zero (h : (p.unwindTo depth).1 = 0) (k : Nat) :
    (p.unwindTo depth).2.dispatchAt? k = p.dispatchAt? k := by
  rw [dispatchAt?_unwindTo]
  split
  · rfl
  · rename_i hk
    cases hslot : p.dispatchAt? k with
    | none => rfl
    | some fn =>
        have hmem : some fn ∈ p.slots.extract (depth + 1) p.slots.size := by
          simp only [dispatchAt?, Option.join_eq_some_iff] at hslot
          rw [Array.mem_iff_getElem?]
          have hsize := (Array.getElem?_eq_some_iff.1 hslot).1
          refine ⟨k - (depth + 1), ?_⟩
          rw [Array.getElem?_extract, if_pos (by omega), ← hslot]
          congr 1
          omega
        simp only [unwindTo, Array.size_eq_zero_iff, Array.filter_eq_empty_iff] at h
        simpa using h _ hmem

/-- The depths with a slot are listed. -/
theorem mem_activeDepths {k : Nat} : k ∈ p.activeDepths ↔ (p.dispatchAt? k).isSome := by
  simp only [activeDepths, List.mem_filter, List.mem_range, hasSlot, and_iff_right_iff_imp]
  intro hsome
  by_contra hsize
  simp [dispatchAt?_eq_none_of_size_le (Nat.le_of_not_lt hsize)] at hsome

theorem activeDepths_eq_nil (h : ∀ k, p.dispatchAt? k = none) : p.activeDepths = [] := by
  simp [activeDepths, hasSlot, h]

/-- They are listed from the shallowest to the deepest. -/
theorem activeDepths_pairwise (p : Pending B) : p.activeDepths.Pairwise (· < ·) :=
  List.pairwise_lt_range.filter _

theorem isEmpty_iff : p.isEmpty ↔ ∀ k, p.dispatchAt? k = none := by
  simp only [isEmpty, Array.all_eq_true, Option.isNone_iff_eq_none, dispatchAt?]
  refine ⟨fun h k => ?_, fun h k hk => ?_⟩
  · cases hslot : p.slots[k]? with
    | none => rfl
    | some slot =>
        obtain ⟨hk, hget⟩ := Array.getElem?_eq_some_iff.1 hslot
        rw [← hget, h k hk]
        rfl
  · simpa [Array.getElem?_eq_getElem hk] using h k

/-! ## Slots and their lists -/

/-- Slots and hook lists fit together. -/
structure WellFormed (p : Pending B) : Prop where
  /-- A slot holds the function of its own depth, whose hook list exists. -/
  slot : ∀ {depth fn}, p.dispatchAt? depth = some fn →
    fn.depth = depth ∧ depth ≠ 0 ∧ fn.list < p.lists.size
  /-- No two slots share a hook list. -/
  apart : ∀ {depth depth' fn fn'}, p.dispatchAt? depth = some fn →
    p.dispatchAt? depth' = some fn' → fn.list = fn'.list → depth = depth'

namespace WellFormed

theorem empty : (Pending.empty : Pending B).WellFormed where
  slot h := by simp [dispatchAt?, Pending.empty] at h
  apart h := by simp [dispatchAt?, Pending.empty] at h

/-- Slots may go and lists may grow. -/
theorem of_kept {q : Pending B} (h : p.WellFormed)
    (hkept : ∀ {k fn}, q.dispatchAt? k = some fn → p.dispatchAt? k = some fn)
    (hsize : p.lists.size ≤ q.lists.size) : q.WellFormed where
  slot hk := by
    obtain ⟨hfn, hne, hlt⟩ := h.slot (hkept hk)
    exact ⟨hfn, hne, by omega⟩
  apart hk hk' := h.apart (hkept hk) (hkept hk')

theorem add_open (h : p.WellFormed) (hook : Hook B) (hdepth : depth ≠ 0)
    (hslot : p.dispatchAt? depth = none) : (p.add depth hook).2.WellFormed := by
  have hat := dispatchAt?_add_open hook hdepth hslot
  have hsize := size_add_open hook hdepth hslot
  refine ⟨fun {k fn} hk => ?_, fun {k k' fn fn'} hk hk' hlist => ?_⟩
  · rw [hat] at hk
    split at hk
    · rename_i heq
      cases hk
      exact ⟨heq.symm, heq ▸ hdepth, hsize ▸ Nat.lt_succ_self _⟩
    · obtain ⟨hfn, hne, hlt⟩ := h.slot hk
      exact ⟨hfn, hne, by omega⟩
  · rw [hat] at hk hk'
    split at hk <;> split at hk'
    · omega
    · cases hk
      exact absurd hlist (Nat.ne_of_gt (h.slot hk').2.2)
    · cases hk'
      exact absurd hlist (Nat.ne_of_lt (h.slot hk).2.2)
    · exact h.apart hk hk' hlist

theorem add_join (h : p.WellFormed) (hook : Hook B) {fn : DispatchFn} (hdepth : depth ≠ 0)
    (hslot : p.dispatchAt? depth = some fn) : (p.add depth hook).2.WellFormed := by
  rw [Pending.add_join hook hdepth hslot]
  exact h.of_kept id (by simp)

theorem clear (h : p.WellFormed) (depth : Nat) : (p.clear depth).2.WellFormed := by
  refine h.of_kept (fun {k fn} hk => ?_) (by simp)
  rw [dispatchAt?_clear] at hk
  split at hk
  · cases hk
  · exact hk

theorem unwindTo (h : p.WellFormed) (depth : Nat) : (p.unwindTo depth).2.WellFormed := by
  refine h.of_kept (fun {k fn} hk => ?_) (by simp)
  rw [dispatchAt?_unwindTo] at hk
  split at hk
  · exact hk
  · cases hk

/-- A hook added at one depth is added to the list of no other. -/
theorem hooks_add_ne (h : p.WellFormed) (hook : Hook B) {k : Nat} {fn : DispatchFn}
    (hk : k ≠ depth) (hslot : p.dispatchAt? k = some fn) :
    (p.add depth hook).2.hooks fn = p.hooks fn := by
  by_cases hdepth : depth = 0
  · simp [add, hdepth]
  cases hother : p.dispatchAt? depth with
  | none =>
      -- the new list is behind all that there were
      rw [hooks_add_open hook hdepth hother, if_neg (Nat.ne_of_lt (h.slot hslot).2.2)]
  | some other =>
      have hapart : fn.list ≠ other.list := fun heq => hk (h.apart hslot hother heq)
      rw [Pending.add_join hook hdepth hother, hooks_modify other fn hook (h.slot hother).2.2,
        if_neg hapart]

/-- The nearest slot is pending at the depth of its function. -/
theorem nearest? (h : p.WellFormed) {fn : DispatchFn} (hfn : p.nearest? depth = some fn) :
    p.dispatchAt? fn.depth = some fn := by
  obtain ⟨k, _, _, hk, _⟩ := nearest?_spec hfn
  rw [(h.slot hk).1, hk]

end WellFormed

end TwoPhase.Pending
