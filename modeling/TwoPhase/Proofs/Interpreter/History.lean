import TwoPhase.Proofs.Interpreter.Core

/-!
# What the record tells

The history of a core records what was done to units under construction.  It only grows, so what was
done since some point is a front part of it, and every slot and hook list can be traced back to the
record: a block that was put off is still pending, or its depth was cleared or unwound since.
-/

namespace TwoPhase.Interpreter

namespace Core

variable {floor least : Nat} {c c' : Core}

/-- What has been done since the history had some length, the last first. -/
def recent (c : Core) (length : Nat) : List Event := c.history.take (c.history.length - length)

/-- The texts that were spliced in since then with hooks pending, the last first. -/
def splices (c : Core) (length : Nat) : List String :=
  (c.recent length).filterMap fun
    | .spliced text true => some text
    | _ => none

theorem mem_splices {length : Nat} {text : String} :
    text ∈ c.splices length ↔ .spliced text true ∈ c.recent length := by
  rw [splices, List.mem_filterMap]
  constructor
  · rintro ⟨event, hmem, hevent⟩
    split at hevent
    · cases hevent
      exact hmem
    · cases hevent
  · exact fun hmem => ⟨_, hmem, rfl⟩

theorem recent_cons {event : Event} (h : c'.history = event :: c.history) {length : Nat}
    (hlength : length ≤ c.history.length) : c'.recent length = event :: c.recent length := by
  rw [recent, recent, h, List.length_cons, Nat.sub_add_comm hlength, List.take_succ_cons]

theorem Steps.mem_recent (h : Steps floor least c c') {length : Nat} {event : Event}
    (hmem : event ∈ c.recent length) : event ∈ c'.recent length := by
  obtain ⟨later, hlater⟩ := h.suffix
  unfold recent at hmem ⊢
  rcases Nat.lt_or_ge length c.history.length with hlt | hge
  · rw [← hlater, List.length_append, List.take_append]
    refine List.mem_append_right _ ?_
    rwa [show later.length + c.history.length - length - later.length = c.history.length - length by
      omega]
  · rw [Nat.sub_eq_zero_of_le hge] at hmem
    exact absurd hmem (by simp)

/-! ## Slots -/

/-- Where a pending slot comes from: it was pending before, or it was opened at the depth of the
code or a deeper one, with a new hook list. -/
theorem Step.slot_cases (h : Step floor least c c') {k : Nat} {fn : DispatchFn}
    (hslot : c'.pending.dispatchAt? k = some fn) :
    c.pending.dispatchAt? k = some fn ∨ (floor ≤ k ∧ c.pending.lists.size ≤ fn.list) := by
  cases h with
  | ensure name => exact .inl hslot
  | set cell value => exact .inl hslot
  | opened depth hook hfloor hdepth hnone =>
      rw [Pending.dispatchAt?_add_open hook hdepth hnone] at hslot
      split at hslot
      · rename_i hk
        cases hslot
        exact .inr ⟨by omega, Nat.le_refl _⟩
      · exact .inl hslot
  | joined depth hook other hfloor hdepth hother =>
      rw [Pending.add_join hook hdepth hother] at hslot
      exact .inl hslot
  | spliced text pending => exact .inl hslot
  | cleared depth other hother =>
      rw [Pending.dispatchAt?_clear] at hslot
      split at hslot
      · cases hslot
      · exact .inl hslot
  | unwound depth hleast hsome =>
      rw [Pending.dispatchAt?_unwindTo] at hslot
      split at hslot
      · exact .inl hslot
      · cases hslot
  | trimmed depth hleast hnone =>
      rw [Pending.dispatchAt?_unwindTo_zero hnone] at hslot
      exact .inl hslot

/-- Hook lists are never dropped. -/
theorem Step.size_le (h : Step floor least c c') :
    c.pending.lists.size ≤ c'.pending.lists.size := by
  cases h with
  | opened depth hook hfloor hdepth hnone =>
      rw [Pending.size_add_open hook hdepth hnone]
      exact Nat.le_succ _
  | joined depth hook fn hfloor hdepth hslot =>
      rw [Pending.add_join hook hdepth hslot]
      simp
  | cleared depth fn hslot => simp
  | _ => exact Nat.le_refl _

theorem Steps.size_le (h : Steps floor least c c') :
    c.pending.lists.size ≤ c'.pending.lists.size := by
  induction h with
  | refl => exact Nat.le_refl _
  | tail _ hstep ih => exact Nat.le_trans ih hstep.size_le

theorem Steps.slot_cases (h : Steps floor least c c') {k : Nat} {fn : DispatchFn}
    (hslot : c'.pending.dispatchAt? k = some fn) :
    c.pending.dispatchAt? k = some fn ∨ (floor ≤ k ∧ c.pending.lists.size ≤ fn.list) := by
  induction h with
  | refl => exact .inl hslot
  | tail hsteps hstep ih =>
      -- a list that is new to a late step is new to all of them, as no list is ever dropped
      rcases hstep.slot_cases hslot with hbefore | ⟨hfloor, hnew⟩
      · exact ih hbefore
      · have hsize := Steps.size_le hsteps
        exact .inr ⟨hfloor, by omega⟩

/-! ## Deferrals -/

/-- What a step records, and what became of the slots it found. -/
theorem Step.recorded (h : Step floor least c c') :
    (c'.history = c.history ∧ ∀ k, c'.pending.dispatchAt? k = c.pending.dispatchAt? k) ∨
      ∃ event, c'.history = event :: c.history ∧
        (∀ k hook, event = .deferred k hook → c'.pending.dispatchAt? k ≠ none) ∧
        ∀ k, c.pending.dispatchAt? k ≠ none → c'.pending.dispatchAt? k ≠ none ∨
          event = .cleared k ∨ ∃ d < k, event = .unwound d := by
  cases h with
  | ensure name => exact .inl ⟨rfl, fun _ => rfl⟩
  | set cell value => exact .inl ⟨rfl, fun _ => rfl⟩
  | opened depth hook hfloor hdepth hnone =>
      have hat := Pending.dispatchAt?_add_open hook hdepth hnone
      refine .inr ⟨_, rfl, ?_, fun k hk => .inl ?_⟩
      · rintro k hook ⟨⟩
        simp [hat]
      · rw [hat]
        split
        · simp
        · exact hk
  | joined depth hook fn hfloor hdepth hslot =>
      rw [Pending.add_join hook hdepth hslot]
      refine .inr ⟨_, rfl, ?_, fun k hk => .inl hk⟩
      rintro k hook ⟨⟩
      exact fun hnone => by
        rw [show c.pending.dispatchAt? depth = none from hnone] at hslot
        cases hslot
  | spliced text pending => exact .inr ⟨_, rfl, by simp, fun k hk => .inl hk⟩
  | cleared depth fn hslot =>
      refine .inr ⟨_, rfl, by simp, fun k hk => ?_⟩
      rw [Pending.dispatchAt?_clear]
      by_cases hkd : k = depth
      · exact .inr (.inl (by rw [hkd]))
      · exact .inl (by rwa [if_neg hkd])
  | unwound depth hleast hsome =>
      refine .inr ⟨_, rfl, by simp, fun k hk => ?_⟩
      rw [Pending.dispatchAt?_unwindTo]
      by_cases hkd : k ≤ depth
      · exact .inl (by rwa [if_pos hkd])
      · exact .inr (.inr ⟨depth, by omega, rfl⟩)
  | trimmed depth hleast hnone =>
      refine .inr ⟨_, rfl, by simp, fun k hk => .inl ?_⟩
      rwa [Pending.dispatchAt?_unwindTo_zero hnone]

/-- A block that was put off is still pending, or its depth was cleared or unwound since. -/
theorem Steps.deferred_cases (h : Steps floor least c c') {later earlier : List Event} {k : Nat}
    {hook : Hook DeferredBlock}
    (hrecent : c'.recent c.history.length = later ++ .deferred k hook :: earlier) :
    c'.pending.dispatchAt? k ≠ none ∨ .cleared k ∈ later ∨ ∃ d < k, .unwound d ∈ later := by
  induction h generalizing later with
  | refl =>
      rw [recent, Nat.sub_self, List.take_zero] at hrecent
      exact absurd hrecent (by simp)
  | @tail c₁ c₂ hsteps hstep ih =>
      have hlength := (Steps.suffix hsteps).length_le
      -- the last step either records nothing and keeps the slots, or adds one event to the front
      rcases hstep.recorded with ⟨hhistory, hslots⟩ | ⟨event, hhistory, hopened, hslots⟩
      · rw [hslots]
        refine ih ?_
        rwa [recent, hhistory] at hrecent
      · rw [recent_cons hhistory hlength] at hrecent
        cases later with
        | nil => exact .inl (hopened k hook (List.cons.inj hrecent).1)
        | cons last later =>
            rw [List.cons_append] at hrecent
            obtain ⟨rfl, hbefore⟩ := List.cons.inj hrecent
            -- up to the last event this holds by induction, so only a pending slot can go now
            rcases ih hbefore with hpending | hcleared | ⟨d, hd, hunwound⟩
            · rcases hslots k hpending with hstill | hcleared | ⟨d, hd, hunwound⟩
              · exact .inl hstill
              · exact .inr (.inl (hcleared ▸ List.mem_cons_self))
              · exact .inr (.inr ⟨d, hd, hunwound ▸ List.mem_cons_self⟩)
            · exact .inr (.inl (List.mem_cons_of_mem _ hcleared))
            · exact .inr (.inr ⟨d, hd, List.mem_cons_of_mem _ hunwound⟩)

end Core

end TwoPhase.Interpreter
