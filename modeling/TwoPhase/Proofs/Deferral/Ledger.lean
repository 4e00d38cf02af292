import Mathlib.Data.List.Sort
import Std.Data.ExtTreeMap
import TwoPhase.Proofs.Deferral.Slots

/-!
# Ledger

A ledger is what pending hooks are kept for: a finite map that has, for every depth with hooks
pending, the dispatch function and the hooks put off since the depth was last given up.  It knows
nothing of an array of slots, nor of lists that outlive their slot.

Pending hooks and the ledger give the same answers to every sequence of commands.  One step lemma
for each command carries this, and a run is a sequence of steps.  A ledger forgets the hooks of a
slot that is gone; what becomes of the list itself is said by `lifetime`.
-/

namespace TwoPhase.Pending

variable {B : Type} {p : Pending B} {depth : Nat}

/-! ## Commands -/

/-- A command to pending hooks. -/
inductive Command (B : Type) where
  | add (depth : Nat) (hook : Hook B)
  | clear (depth : Nat)
  | unwindTo (depth : Nat)
  deriving DecidableEq, Inhabited, Repr

/-- The answer to a command. -/
inductive Answer where
  | added (result : Except HookError Added)
  | cleared (result : Except HookError (Option DispatchFn))
  | unwound (removed : Nat)

/-- Whether a command was refused. -/
def Answer.failed : Answer → Bool
  | added (.error _) => true
  | cleared (.error _) => true
  | _ => false

def perform (p : Pending B) : Command B → Answer × Pending B
  | .add depth hook => (.added (p.add depth hook).1, (p.add depth hook).2)
  | .clear depth => (.cleared (p.clear depth).1, (p.clear depth).2)
  | .unwindTo depth => (.unwound (p.unwindTo depth).1, (p.unwindTo depth).2)

/-- The answers to commands performed in turn, and the pending hooks after them. -/
def performAll (p : Pending B) : List (Command B) → List Answer × Pending B
  | [] => ([], p)
  | command :: commands =>
    let (answer, p) := p.perform command
    let (answers, p) := p.performAll commands
    (answer :: answers, p)

@[simp] theorem performAll_nil (p : Pending B) : p.performAll [] = ([], p) := rfl

@[simp] theorem performAll_cons (p : Pending B) (command : Command B)
    (commands : List (Command B)) :
    p.performAll (command :: commands) =
      ((p.perform command).1 :: ((p.perform command).2.performAll commands).1,
        ((p.perform command).2.performAll commands).2) := rfl

theorem performAll_append (p : Pending B) (first rest : List (Command B)) :
    (p.performAll (first ++ rest)).2 = ((p.performAll first).2.performAll rest).2 := by
  induction first generalizing p with
  | nil => rfl
  | cons command first ih => exact ih _

/-- Every command keeps slots and lists fitting together. -/
theorem WellFormed.perform (h : p.WellFormed) (command : Command B) :
    (p.perform command).2.WellFormed := by
  cases command with
  | add depth hook =>
      by_cases hdepth : depth = 0
      · simpa [Pending.perform, add, hdepth] using h
      · cases hslot : p.dispatchAt? depth with
        | none => exact h.add_open hook hdepth hslot
        | some fn => exact h.add_join hook hdepth hslot
  | clear depth => exact h.clear depth
  | unwindTo depth => exact h.unwindTo depth

theorem WellFormed.performAll (h : p.WellFormed) (commands : List (Command B)) :
    (p.performAll commands).2.WellFormed := by
  induction commands generalizing p with
  | nil => exact h
  | cons command commands ih => exact ih (h.perform command)

/-- A refused command changes nothing. -/
theorem perform_failed (p : Pending B) (command : Command B)
    (hfailed : (p.perform command).1.failed) : (p.perform command).2 = p := by
  cases command with
  | add depth hook =>
      by_cases hdepth : depth = 0
      · simp [perform, add, hdepth]
      · cases hslot : p.dispatchAt? depth with
        | none => simp [perform, add_open hook hdepth hslot, Answer.failed] at hfailed
        | some fn => simp [perform, add_join hook hdepth hslot, Answer.failed] at hfailed
  | clear depth =>
      cases hslot : p.dispatchAt? depth with
      | none => simp [perform, clear_of_none hslot]
      | some fn => simp [perform, clear_of_slot hslot, Answer.failed] at hfailed
  | unwindTo depth => simp [perform, Answer.failed] at hfailed

/-! ## The last place -/

/-- The last place of the array is not empty. -/
def Tidy (p : Pending B) : Prop := p.slots.back? ≠ some none

theorem trim_tidy (slots : Array (Option DispatchFn)) : (trim slots).back? ≠ some none := by
  intro hback
  obtain ⟨slots⟩ := slots
  rw [trim, List.popWhile_toArray] at hback
  simp only [List.back?_toArray, List.getLast?_reverse] at hback
  have hhead := List.head?_dropWhile_not (fun slot : Option DispatchFn => slot.isNone) slots.reverse
  rw [hback] at hhead
  simp at hhead

theorem Tidy.add (h : p.Tidy) (depth : Nat) (hook : Hook B) : (p.add depth hook).2.Tidy := by
  by_cases hdepth : depth = 0
  · simpa [Pending.add, hdepth] using h
  cases hslot : p.dispatchAt? depth with
  | some fn =>
      rw [add_join hook hdepth hslot]
      exact h
  | none =>
      have hslots : (p.add depth hook).2.slots
          = (p.slots ++ Array.replicate (depth + 1 - p.slots.size) none).setIfInBounds depth
            (some ⟨p.lists.size, depth⟩) := by
        simp [Pending.add, hdepth, hslot]
      unfold Tidy at h ⊢
      rw [hslots, Array.back?_eq_getElem?, Array.getElem?_setIfInBounds]
      rw [Array.back?_eq_getElem?] at h
      simp only [Array.size_setIfInBounds, Array.size_append, Array.size_replicate]
      -- the last place is the one that was filled, or it was the last one before
      split
      · split <;> simp
      · rename_i hlast
        rw [Array.getElem?_append_left (by omega)]
        convert h using 3
        omega

theorem Tidy.perform (h : p.Tidy) (command : Command B) : (p.perform command).2.Tidy := by
  cases command with
  | add depth hook => exact h.add depth hook
  | clear depth =>
      cases hslot : p.dispatchAt? depth with
      | none => simpa [Pending.perform, clear_of_none hslot] using h
      | some fn =>
          simp only [Pending.perform, Pending.clear, hslot]
          exact trim_tidy _
  | unwindTo depth => exact trim_tidy _

theorem Tidy.performAll (h : p.Tidy) (commands : List (Command B)) :
    (p.performAll commands).2.Tidy := by
  induction commands generalizing p with
  | nil => exact h
  | cons command commands ih => exact ih (h.perform command)

/-! ## Active depths -/

/-- Counting filled places past some place, by their numbers. -/
theorem countP_drop (slots : List (Option DispatchFn)) (start : Nat) :
    (slots.drop start).countP (·.isSome) =
      (((List.range slots.length).filter fun k => (slots[k]?.join).isSome).filter
        fun k => start ≤ k).length := by
  induction slots using List.reverseRecOn with
  | nil => simp
  | append_singleton slots last ih =>
      -- from the end: the last place is counted alone
      have hinit : ((List.range slots.length).filter fun k => ((slots ++ [last])[k]?.join).isSome)
          = (List.range slots.length).filter fun k => (slots[k]?.join).isSome :=
        List.filter_congr fun k hk => by
          rw [List.getElem?_append_left (List.mem_range.1 hk)]
      rw [List.length_append, List.length_singleton, List.range_succ, List.filter_append, hinit,
        List.filter_append, List.length_append, ← ih]
      rcases Nat.lt_or_ge slots.length start with hlt | hle
      · rw [List.drop_eq_nil_of_le (by simp; omega), List.drop_eq_nil_of_le (by omega)]
        cases last <;> simp [hlt]
      · rw [List.drop_append_of_le_length hle, List.countP_append]
        cases last <;> simp [hle]

/-- Unwinding counts the active depths that it removes. -/
theorem unwindTo_count (p : Pending B) (depth : Nat) :
    (p.unwindTo depth).1 = (p.activeDepths.filter fun k => depth < k).length := by
  obtain ⟨lists, ⟨slots⟩⟩ := p
  have hcount := countP_drop slots (depth + 1)
  have hslots : (⟨lists, ⟨slots⟩⟩ : Pending B).hasSlot = fun k => (slots[k]?.join).isSome := by
    funext k
    simp [hasSlot, dispatchAt?]
  rw [activeDepths, hslots]
  simp only [unwindTo]
  rw [← Array.countP_eq_size_filter, List.extract_toArray, List.countP_toArray,
    List.extract_eq_take_drop, List.take_of_length_le (by simp), hcount]
  rfl

/-! ## The ledger -/

/-- What hooks are pending, by depth. -/
structure Ledger (B : Type) where
  /-- The number of dispatch functions made so far. -/
  opened : Nat
  /-- The function of a depth, and the hooks put off there since the depth was last given up. -/
  entries : Std.ExtTreeMap Nat (DispatchFn × List (Hook B))

namespace Ledger

def empty : Ledger B := ⟨0, ∅⟩

/-- The function at the greatest depth in use below a depth. -/
def parent? (l : Ledger B) (depth : Nat) : Option DispatchFn :=
  ((l.entries.filter fun k _ => k < depth).maxKey?.bind (l.entries[·]?)).map Prod.fst

def perform (l : Ledger B) : Command B → Answer × Ledger B
  | .add depth hook =>
    if depth = 0 then (.added (.error .notConstructing), l)
    else match l.entries[depth]? with
      | none =>
        let fn : DispatchFn := ⟨l.opened, depth⟩
        (.added (.ok (.opened fn)), ⟨l.opened + 1, l.entries.insert depth (fn, [hook])⟩)
      | some (fn, hooks) =>
        (.added (.ok .joined), { l with entries := l.entries.insert depth (fn, hooks ++ [hook]) })
  | .clear depth =>
    if depth ∈ l.entries then
      (.cleared (.ok (l.parent? depth)), { l with entries := l.entries.erase depth })
    else (.cleared (.error (.noSlot depth)), l)
  | .unwindTo depth =>
    (.unwound (l.entries.filter fun k _ => depth < k).size,
      { l with entries := l.entries.filter fun k _ => k ≤ depth })

def performAll (l : Ledger B) : List (Command B) → List Answer × Ledger B
  | [] => ([], l)
  | command :: commands =>
    let (answer, l) := l.perform command
    let (answers, l) := l.performAll commands
    (answer :: answers, l)

end Ledger

/-- A ledger has an entry for every slot, with its function and the hooks of its list. -/
structure Tracks (p : Pending B) (l : Ledger B) : Prop where
  opened : l.opened = p.lists.size
  entry : ∀ k, l.entries[k]? = (p.dispatchAt? k).map fun fn => (fn, (p.hooks fn).toList)

namespace Tracks

variable {l : Ledger B}

theorem empty : Tracks (Pending.empty : Pending B) Ledger.empty where
  opened := rfl
  entry k := by simp [Ledger.empty, Pending.empty, dispatchAt?]

theorem mem_iff (h : Tracks p l) {k : Nat} : k ∈ l.entries ↔ (p.dispatchAt? k).isSome := by
  rw [Std.ExtTreeMap.mem_iff_isSome_getElem?, h.entry, Option.isSome_map]

/-- The keys of the ledger are the active depths, in order. -/
theorem keys (h : Tracks p l) : l.entries.keys = p.activeDepths := by
  have hkeys : l.entries.keys.Pairwise (· < ·) :=
    l.entries.ordered_keys.imp Nat.compare_eq_lt.1
  -- two sorted lists with the same members are the same
  refine hkeys.eq_of_mem_iff p.activeDepths_pairwise fun k => ?_
  rw [Std.ExtTreeMap.mem_keys, h.mem_iff, mem_activeDepths]

/-- The function below a depth is that of the nearest shallower slot. -/
theorem parent? (h : Tracks p l) (hp : p.WellFormed) (depth : Nat) :
    l.parent? depth = p.nearest? (depth - 1) := by
  have hmem : ∀ k, k ∈ l.entries.filter (fun k _ => decide (k < depth)) ↔
      (p.dispatchAt? k).isSome ∧ k < depth := fun k => by
    rw [Std.ExtTreeMap.mem_iff_isSome_getElem?, Std.ExtTreeMap.getElem?_filter', h.entry]
    cases p.dispatchAt? k <;> simp [Option.filter]
  -- the greatest key below the depth, by where the search for the nearest slot ends
  cases hnearest : p.nearest? (depth - 1) with
  | none =>
      have hempty : (l.entries.filter fun k _ => decide (k < depth)).maxKey? = none := by
        cases hmax : (l.entries.filter fun k _ => decide (k < depth)).maxKey? with
        | none => rfl
        | some k =>
            obtain ⟨hsome, hkd⟩ := (hmem k).1 (Std.ExtTreeMap.maxKey?_mem hmax)
            obtain ⟨fn, hslot⟩ := Option.isSome_iff_exists.1 hsome
            have hnone := nearest?_eq_none hnearest (Nat.pos_of_ne_zero (hp.slot hslot).2.1)
              (by omega : k ≤ depth - 1)
            rw [hslot] at hnone
            cases hnone
      simp [Ledger.parent?, hempty]
  | some fn =>
      obtain ⟨k, hk, hkd, hslot, hbetween⟩ := nearest?_spec hnearest
      have hmax : (l.entries.filter fun k _ => decide (k < depth)).maxKey? = some k := by
        rw [Std.ExtTreeMap.maxKey?_eq_some_iff_mem_and_forall]
        refine ⟨(hmem k).2 ⟨by simp [hslot], by omega⟩, fun j hj => ?_⟩
        obtain ⟨hsome, hjd⟩ := (hmem j).1 hj
        rw [Nat.isLE_compare]
        by_contra hlt
        simp [hbetween j (by omega) (by omega)] at hsome
      simp [Ledger.parent?, hmax, h.entry, hslot]

/-- Opening a slot makes an entry with one hook. -/
theorem add_open (h : Tracks p l) (hp : p.WellFormed) (hook : Hook B) (hdepth : depth ≠ 0)
    (hslot : p.dispatchAt? depth = none) :
    Tracks (p.add depth hook).2
      ⟨p.lists.size + 1, l.entries.insert depth (⟨p.lists.size, depth⟩, [hook])⟩ where
  opened := (size_add_open hook hdepth hslot).symm
  entry k := by
    rw [Std.ExtTreeMap.getElem?_insert]
    by_cases hk : k = depth
    · subst hk
      simp [dispatchAt?_add_open hook hdepth hslot, hooks_add_open hook hdepth hslot]
    · rw [if_neg (by simpa using Ne.symm hk), h.entry, dispatchAt?_add_ne hook hk]
      refine Option.map_congr fun fn hother => ?_
      rw [hp.hooks_add_ne hook hk hother]

/-- Joining a slot adds to the hooks of its entry. -/
theorem add_join (h : Tracks p l) (hp : p.WellFormed) (hook : Hook B) {fn : DispatchFn}
    (hdepth : depth ≠ 0) (hslot : p.dispatchAt? depth = some fn) :
    Tracks (p.add depth hook).2
      { l with entries := l.entries.insert depth (fn, (p.hooks fn).toList ++ [hook]) } where
  opened := by
    rw [Pending.add_join hook hdepth hslot]
    simpa using h.opened
  entry k := by
    rw [Std.ExtTreeMap.getElem?_insert]
    by_cases hk : k = depth
    · subst hk
      rw [Pending.add_join hook hdepth hslot]
      change _ = (p.dispatchAt? k).map _
      simp [hslot, hooks_modify fn fn hook (hp.slot hslot).2.2]
    · rw [if_neg (by simpa using Ne.symm hk), h.entry, dispatchAt?_add_ne hook hk]
      refine Option.map_congr fun other hother => ?_
      rw [hp.hooks_add_ne hook hk hother]

/-- Clearing a slot takes its entry. -/
theorem clear (h : Tracks p l) (depth : Nat) :
    Tracks (p.clear depth).2 { l with entries := l.entries.erase depth } where
  opened := by simpa using h.opened
  entry k := by
    rw [Std.ExtTreeMap.getElem?_erase, dispatchAt?_clear, h.entry]
    by_cases hk : k = depth
    · simp [hk]
    · simp [hk, Ne.symm hk, hooks]

/-- Unwinding takes the entries of deeper slots. -/
theorem unwindTo (h : Tracks p l) (depth : Nat) :
    Tracks (p.unwindTo depth).2 { l with entries := l.entries.filter fun k _ => k ≤ depth } where
  opened := h.opened
  entry k := by
    rw [Std.ExtTreeMap.getElem?_filter', h.entry, dispatchAt?_unwindTo]
    by_cases hk : k ≤ depth
    · cases p.dispatchAt? k <;> simp [hk, hooks, Option.filter]
    · cases p.dispatchAt? k <;> simp [hk, Option.filter]

/-- One command: the answers agree, and the ledger goes on to have the entries of the slots. -/
theorem perform (h : Tracks p l) (hp : p.WellFormed) (command : Command B) :
    (p.perform command).1 = (l.perform command).1 ∧
      Tracks (p.perform command).2 (l.perform command).2 := by
  cases command with
  | add depth hook =>
      by_cases hdepth : depth = 0
      · simpa [Pending.perform, Pending.add, Ledger.perform, hdepth] using h
      have hentry := h.entry depth
      cases hslot : p.dispatchAt? depth with
      | none =>
          rw [hslot] at hentry
          have hl : l.perform (.add depth hook) = (.added (.ok (.opened ⟨p.lists.size, depth⟩)),
              ⟨p.lists.size + 1, l.entries.insert depth (⟨p.lists.size, depth⟩, [hook])⟩) := by
            simp [Ledger.perform, hdepth, hentry, h.opened]
          rw [hl]
          refine ⟨?_, h.add_open hp hook hdepth hslot⟩
          rw [Pending.perform, Pending.add_open hook hdepth hslot]
      | some fn =>
          rw [hslot] at hentry
          have hl : l.perform (.add depth hook) = (.added (.ok .joined),
              { l with
                entries := l.entries.insert depth (fn, (p.hooks fn).toList ++ [hook]) }) := by
            simp [Ledger.perform, hdepth, hentry]
          rw [hl]
          refine ⟨?_, h.add_join hp hook hdepth hslot⟩
          rw [Pending.perform, Pending.add_join hook hdepth hslot]
  | clear depth =>
      have hmem := h.mem_iff (k := depth)
      cases hslot : p.dispatchAt? depth with
      | none =>
          rw [hslot] at hmem
          simpa [Pending.perform, clear_of_none hslot, Ledger.perform, hmem] using h
      | some fn =>
          rw [hslot] at hmem
          -- the search starts behind the slot, so it does not matter that the slot is gone
          have hparent : (p.clear depth).2.nearest? (depth - 1) = p.nearest? (depth - 1) :=
            nearest?_congr fun k hk hkd => by rw [dispatchAt?_clear, if_neg (by omega)]
          have hl : l.perform (.clear depth) = (.cleared (.ok (p.nearest? (depth - 1))),
              { l with entries := l.entries.erase depth }) := by
            simp [Ledger.perform, hmem, h.parent? hp]
          rw [hl]
          refine ⟨?_, h.clear depth⟩
          rw [Pending.perform, clear_of_slot hslot, hparent]
  | unwindTo depth =>
      refine ⟨?_, h.unwindTo depth⟩
      rw [Pending.perform, Ledger.perform, unwindTo_count, ← h.keys,
        ← Std.ExtTreeMap.keys_filter_key, Std.ExtTreeMap.length_keys]

/-- A whole run, by steps. -/
theorem performAll (h : Tracks p l) (hp : p.WellFormed) (commands : List (Command B)) :
    (p.performAll commands).1 = (l.performAll commands).1 ∧
      Tracks (p.performAll commands).2 (l.performAll commands).2 := by
  induction commands generalizing p l with
  | nil => exact ⟨rfl, h⟩
  | cons command commands ih =>
      obtain ⟨hanswer, hnext⟩ := h.perform hp command
      obtain ⟨hanswers, hlast⟩ := ih hnext (hp.perform command)
      exact ⟨congrArg₂ List.cons hanswer hanswers, hlast⟩

end Tracks

/-! ## The life of a hook list -/

/-- Whether a command removes the slot of a depth. -/
def Command.removes (depth : Nat) : Command B → Bool
  | .add _ _ => false
  | .clear k => k = depth
  | .unwindTo k => k < depth

/-- The hook that a command adds at a depth. -/
def Command.hookAt? (depth : Nat) : Command B → Option (Hook B)
  | .add k hook => if k = depth then some hook else none
  | .clear _ => none
  | .unwindTo _ => none

/-- The hooks added at a depth until its slot is removed. -/
def lifetime (depth : Nat) (commands : List (Command B)) : List (Hook B) :=
  (commands.takeWhile fun command => !command.removes depth).filterMap (·.hookAt? depth)

/-- No slot has the list of this function any more. -/
structure Detached (p : Pending B) (fn : DispatchFn) : Prop where
  exists_list : fn.list < p.lists.size
  unused : ∀ {k other}, p.dispatchAt? k = some other → other.list ≠ fn.list

namespace Detached

variable {fn : DispatchFn}

/-- Slots may go. -/
theorem of_kept {q : Pending B} (h : p.Detached fn) (hlists : q.lists = p.lists)
    (hkept : ∀ {k other}, q.dispatchAt? k = some other → p.dispatchAt? k = some other) :
    q.Detached fn ∧ q.hooks fn = p.hooks fn :=
  ⟨⟨hlists ▸ h.exists_list, fun hk => h.unused (hkept hk)⟩, by rw [hooks, hooks, hlists]⟩

/-- No command adds to a list that has no slot, nor makes a slot for it. -/
theorem perform (h : p.Detached fn) (hp : p.WellFormed) (command : Command B) :
    (p.perform command).2.Detached fn ∧ (p.perform command).2.hooks fn = p.hooks fn := by
  cases command with
  | add depth hook =>
      by_cases hdepth : depth = 0
      · simpa [Pending.perform, add, hdepth] using h
      have hlist := h.exists_list
      cases hslot : p.dispatchAt? depth with
      | none =>
          refine ⟨⟨?_, fun {k other} hk => ?_⟩, ?_⟩
          · simp only [Pending.perform, size_add_open hook hdepth hslot]
            omega
          · simp only [Pending.perform, dispatchAt?_add_open hook hdepth hslot] at hk
            split at hk
            · cases hk
              exact Nat.ne_of_gt hlist
            · exact h.unused hk
          · simp only [Pending.perform, hooks_add_open hook hdepth hslot]
            rw [if_neg (Nat.ne_of_lt hlist)]
      | some joined =>
          simp only [Pending.perform, add_join hook hdepth hslot]
          refine ⟨⟨by simpa using hlist, fun hk => h.unused hk⟩, ?_⟩
          rw [hooks_modify joined fn hook (hp.slot hslot).2.2, if_neg (h.unused hslot).symm]
  | clear depth =>
      refine h.of_kept (lists_clear p depth) fun {k other} hk => ?_
      simp only [Pending.perform, dispatchAt?_clear] at hk
      split at hk
      · cases hk
      · exact hk
  | unwindTo depth =>
      refine h.of_kept rfl fun {k other} hk => ?_
      simp only [Pending.perform, dispatchAt?_unwindTo] at hk
      split at hk
      · exact hk
      · cases hk

/-- The hooks of a list that has no slot never change again. -/
theorem performAll (h : p.Detached fn) (hp : p.WellFormed) (commands : List (Command B)) :
    (p.performAll commands).2.Detached fn ∧ (p.performAll commands).2.hooks fn = p.hooks fn := by
  induction commands generalizing p with
  | nil => exact ⟨h, rfl⟩
  | cons command commands ih =>
      obtain ⟨hnext, hhooks⟩ := h.perform hp command
      obtain ⟨hlast, hrest⟩ := ih hnext (hp.perform command)
      exact ⟨hlast, hrest.trans hhooks⟩

end Detached

section Lifetime

variable {fn : DispatchFn}

/-- A removed slot leaves its list behind as it is. -/
theorem perform_removes (hp : p.WellFormed) (hslot : p.dispatchAt? depth = some fn)
    {command : Command B} (hremoves : command.removes depth) :
    (p.perform command).2.Detached fn ∧ (p.perform command).2.hooks fn = p.hooks fn := by
  have hother : ∀ {k other}, p.dispatchAt? k = some other → k ≠ depth → other.list ≠ fn.list :=
    fun hk hne heq => hne (hp.apart hk hslot heq)
  cases command with
  | add k hook => simp [Command.removes] at hremoves
  | clear cleared =>
      have hcleared : cleared = depth := by simpa [Command.removes] using hremoves
      refine ⟨⟨by simpa [perform] using (hp.slot hslot).2.2, fun {k other} hk => ?_⟩,
        by simp [perform, hooks]⟩
      simp only [perform, dispatchAt?_clear] at hk
      split at hk
      · cases hk
      · exact hother hk (by omega)
  | unwindTo kept =>
      have hkept : kept < depth := by simpa [Command.removes] using hremoves
      refine ⟨⟨(hp.slot hslot).2.2, fun {k other} hk => ?_⟩, rfl⟩
      simp only [perform, dispatchAt?_unwindTo] at hk
      split at hk
      · exact hother hk (by omega)
      · cases hk

/-- A slot that stays gets the hooks added at its depth, and no others. -/
theorem perform_stays (hp : p.WellFormed) (hslot : p.dispatchAt? depth = some fn)
    {command : Command B} (hstays : command.removes depth = false) :
    (p.perform command).2.dispatchAt? depth = some fn ∧
      ((p.perform command).2.hooks fn).toList
        = (p.hooks fn).toList ++ (command.hookAt? depth).toList := by
  obtain ⟨-, hdepth, hlist⟩ := hp.slot hslot
  cases command with
  | add k hook =>
      by_cases hk : k = depth
      · subst hk
        rw [perform, add_join hook hdepth hslot]
        refine ⟨hslot, ?_⟩
        simp [hooks_modify fn fn hook hlist, Command.hookAt?]
      · refine ⟨(dispatchAt?_add_ne hook (Ne.symm hk)).trans hslot, ?_⟩
        simp [perform, hp.hooks_add_ne hook (Ne.symm hk) hslot, Command.hookAt?, hk]
  | clear cleared =>
      have hne : depth ≠ cleared := by
        rintro rfl
        simp [Command.removes] at hstays
      simp [perform, dispatchAt?_clear, hne, hslot, hooks, Command.hookAt?]
  | unwindTo kept =>
      have hle : depth ≤ kept := by simpa [Command.removes] using hstays
      simp [perform, dispatchAt?_unwindTo, hle, hslot, hooks, Command.hookAt?]

/-- From an open slot on: its list gets the hooks of its lifetime, and afterwards no others. -/
theorem performAll_slot (hp : p.WellFormed) (hslot : p.dispatchAt? depth = some fn)
    (commands : List (Command B)) :
    ((p.performAll commands).2.hooks fn).toList = (p.hooks fn).toList ++ lifetime depth commands ∧
      ((p.performAll commands).2.dispatchAt? depth = some fn ∨
        (p.performAll commands).2.Detached fn) := by
  induction commands generalizing p with
  | nil => exact ⟨by simp [lifetime], .inl hslot⟩
  | cons command commands ih =>
      rw [performAll_cons]
      -- up to the command that removes the slot hooks join it; from there on its list is detached
      cases hremoves : command.removes depth with
      | true =>
          obtain ⟨hdetached, hhooks⟩ := perform_removes hp hslot hremoves
          obtain ⟨hlast, hrest⟩ := hdetached.performAll (hp.perform command) commands
          refine ⟨?_, .inr hlast⟩
          simp [lifetime, hremoves, hrest, hhooks]
      | false =>
          obtain ⟨hstays, hhooks⟩ := perform_stays hp hslot hremoves
          obtain ⟨hrest, hlast⟩ := ih (hp.perform command) hstays
          refine ⟨?_, hlast⟩
          rw [hrest, hhooks, lifetime, lifetime, List.takeWhile_cons, hremoves]
          cases hadded : command.hookAt? depth <;> simp [hadded]

/-- A function that a command opened starts with the hook of that command. -/
theorem perform_opened {hook : Hook B}
    (hopened : (p.perform (.add depth hook)).1 = .added (.ok (.opened fn))) :
    (p.perform (.add depth hook)).2.dispatchAt? depth = some fn ∧
      ((p.perform (.add depth hook)).2.hooks fn).toList = [hook] := by
  by_cases hdepth : depth = 0
  · simp [perform, add, hdepth] at hopened
  cases hslot : p.dispatchAt? depth with
  | some joined => simp [perform, add_join hook hdepth hslot] at hopened
  | none =>
      obtain rfl : (⟨p.lists.size, depth⟩ : DispatchFn) = fn := by
        simpa [perform, add_open hook hdepth hslot] using hopened
      simp [perform, dispatchAt?_add_open hook hdepth hslot, hooks_add_open hook hdepth hslot]

end Lifetime

/-! ## The main statement -/

/-- Pending hooks refine the ledger.  After any commands, the answers have been those of the ledger,
the slots and their hooks are its entries, a refused command changes nothing, and the array is laid
out as it should be.  Every function ever opened has the hooks added at its depth from then until
its slot was removed, in order, and once the slot is gone no commands change them. -/
theorem refines_ledger (commands : List (Command B)) :
    let p := (empty.performAll commands).2
    let l := (Ledger.empty.performAll commands).2
    (empty.performAll commands).1 = (Ledger.empty.performAll commands).1 ∧
    p.activeDepths = l.entries.keys ∧
    (∀ k, l.entries[k]? = (p.dispatchAt? k).map fun fn => (fn, (p.hooks fn).toList)) ∧
    (∀ command, (p.perform command).1.failed → (p.perform command).2 = p) ∧
    p.slots[0]?.join = none ∧
    p.slots.back? ≠ some none ∧
    (∀ depth fn, p.dispatchAt? depth = some fn → fn.depth = depth) ∧
    ∀ before depth hook after fn, commands = before ++ .add depth hook :: after →
      ((empty.performAll before).2.perform (.add depth hook)).1 = .added (.ok (.opened fn)) →
      (p.hooks fn).toList = hook :: lifetime depth after ∧
      (p.dispatchAt? depth ≠ some fn → ∀ more, (p.performAll more).2.hooks fn = p.hooks fn) := by
  intro p l
  have hempty : (empty : Pending B).WellFormed := .empty
  have hp : p.WellFormed := hempty.performAll commands
  obtain ⟨hanswers, htracks⟩ := Tracks.empty.performAll hempty commands
  have htidy : p.Tidy := Tidy.performAll (by simp [Tidy, empty]) commands
  refine ⟨hanswers, htracks.keys.symm, htracks.entry, p.perform_failed, ?_, htidy,
    fun depth fn hslot => (hp.slot hslot).1, ?_⟩
  · cases hzero : p.dispatchAt? 0 with
    | none => exact hzero
    | some fn => exact absurd rfl (hp.slot hzero).2.1
  · rintro before depth hook after fn hcommands hopened
    obtain ⟨hslot, hfirst⟩ := perform_opened hopened
    -- the commands that come after the one that opens the slot start from a well-formed state
    have hlast : p = (((empty.performAll before).2.perform (.add depth hook)).2.performAll
        after).2 := by
      change (empty.performAll commands).2 = _
      rw [hcommands, performAll_append, performAll_cons]
    obtain ⟨hhooks, hafter⟩ :=
      performAll_slot ((hempty.performAll before).perform _) hslot after
    rw [← hlast] at hhooks hafter
    refine ⟨by rw [hhooks, hfirst]; rfl, fun hgone more => ?_⟩
    have hdetached : p.Detached fn := hafter.resolve_left hgone
    exact (hdetached.performAll hp more).2

end TwoPhase.Pending
