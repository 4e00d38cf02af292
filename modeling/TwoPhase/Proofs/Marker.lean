import TwoPhase.Deferral.Basic
import TwoPhase.Proofs.Reach
import TwoPhase.Proofs.Splice

/-!
# Markers in a text

The first block put off at a depth splices a marker in, further on in the text, which clears the
depth when it is parsed.  A marker that scanning comes to is in sight.  It stays in sight while the
tokens before it are consumed, and while text is spliced in that does not swallow what follows it
(`Closed`), in either mode.
-/

namespace TwoPhase

open Scan (Reaches skip)

/-! ## The text of a marker -/

theorem toList_clearFragment (depth : Nat) : (clearFragment depth).toList =
    "begin \x7b at_runtime::clear(".toList ++ (Nat.toDigits 10 depth ++ ") \x7d".toList) := by
  simp only [clearFragment, clearName, String.toList_append, Nat.toString_eq_repr, Nat.toList_repr,
    List.append_assoc]
  rfl

theorem toList_dispatchFragment (depth : Nat) : (dispatchFragment depth).toList =
    "at_runtime::dispatch(); ".toList ++ (clearFragment depth).toList := by
  simp only [dispatchFragment, dispatchName, String.toList_append]
  rfl

theorem newline_notMem_clearFragment (depth : Nat) : '\n' ∉ (clearFragment depth).toList := by
  rw [toList_clearFragment]
  intro hmem
  rcases List.mem_append.1 hmem with hmem | hmem
  · exact absurd hmem (by decide)
  rcases List.mem_append.1 hmem with hmem | hmem
  · have hdigit := Nat.isDigit_of_mem_toDigits (by decide) (by decide) hmem
    exact absurd hdigit (by decide)
  · exact absurd hmem (by decide)

/-- A marker begins with a token. -/
theorem skip_clearFragment (depth : Nat) (rest : List Char) :
    skip ((clearFragment depth).toList ++ rest) = (clearFragment depth).toList ++ rest := by
  rw [toList_clearFragment]
  rfl

/-- Scanning reads through the dispatch call that is in front of a marker. -/
theorem reaches_clearFragment (depth : Nat) (rest : List Char) :
    Reaches ((dispatchFragment depth).toList ++ rest) ((clearFragment depth).toList ++ rest) := by
  rw [toList_dispatchFragment, List.append_assoc]
  generalize (clearFragment depth).toList ++ rest = cs
  refine .piece ?_
  change Reaches ("(); ".toList ++ cs) cs
  refine .piece ?_
  change Reaches ("); ".toList ++ cs) cs
  refine .piece ?_
  change Reaches ("; ".toList ++ cs) cs
  refine .piece ?_
  change Reaches (' ' :: cs) cs
  exact .blank rfl (.refl cs)

/-! ## Text that does not swallow what follows -/

/-- A text that ends at a cut wherever it is spliced in: no token or comment of it runs on into what
follows. -/
def Closed (text : String) : Prop :=
  ∀ left rest, Reaches (Buffer.padded left text.toList rest.head? ++ rest) rest

/-- Scanning comes to the marker of a depth. -/
def Sighted (depth : Nat) (cs : List Char) : Prop :=
  ∃ rest, Reaches cs ((clearFragment depth).toList ++ rest)

namespace Sighted

variable {depth : Nat} {cs ds : List Char} {b : Buffer} {text : String}

theorem of_reaches (h : Reaches cs ds) (hds : Sighted depth ds) : Sighted depth cs := by
  obtain ⟨rest, hrest⟩ := hds
  exact ⟨rest, h.trans hrest⟩

theorem not_nil : ¬Sighted depth [] := by
  rintro ⟨rest, hrest⟩
  have hnil := hrest.nil_eq
  rw [toList_clearFragment] at hnil
  simp at hnil

/-- A marker in sight is the next thing in the text, or it is in sight behind the next token. -/
theorem next (h : Sighted depth b.after) :
    (∃ rest, skip b.after = (clearFragment depth).toList ++ rest) ∨
      Sighted depth b.next.2.after := by
  obtain ⟨rest, hrest⟩ := h
  rcases hrest.next (skip_clearFragment depth rest) b.cursor with hhere | hbehind
  · exact .inl ⟨rest, hhere⟩
  · refine .inr ⟨rest, ?_⟩
    rwa [← b.found_eq] at hbehind

theorem kind_of_skip {rest : List Char}
    (h : skip b.after = (clearFragment depth).toList ++ rest) :
    b.found.token.kind = .kwBegin := by
  rw [toList_clearFragment] at h
  rw [b.found_eq, (Scan.first_of_skip b.cursor h).1]
  rfl

/-- Behind a token that does not start a block, a marker is in sight as before. -/
theorem advance (h : Sighted depth b.after) (hkind : b.found.token.kind ≠ .kwBegin) :
    Sighted depth b.next.2.after := by
  rcases h.next with ⟨rest, hhere⟩ | hbehind
  · exact absurd (kind_of_skip hhere) hkind
  · exact hbehind

/-- At its end, a text has no marker in sight. -/
theorem kind_ne_end (h : Sighted depth b.after) : b.found.token.kind ≠ .endOfInput := by
  obtain ⟨rest, hrest⟩ := h
  intro hend
  rcases hrest.skip (skip_clearFragment depth rest) with hhere | ⟨c, more, hskip, _⟩
  · rw [kind_of_skip hhere] at hend
    cases hend
  · rw [b.found_eq] at hend
    exact Scan.first_kind_ne_end b.cursor hskip hend

/-! ## Splices -/

/-- A marker in sight of one line is in sight however the next line begins. -/
theorem insert_line {line following : List Char} (hline : '\n' ∉ line)
    (h : Sighted depth (line ++ '\n' :: following)) {piece : List Char}
    (hpiece : Reaches (piece ++ following) following) :
    Sighted depth (line ++ '\n' :: (piece ++ following)) := by
  obtain ⟨rest, hrest⟩ := h
  rcases Reaches.of_line hline hrest with ⟨ds, hds, hinside⟩ | hbehind
  · -- the marker is on the line, and holds no line break itself
    have hmarker : ∃ more, ds = (clearFragment depth).toList ++ more := by
      rcases List.append_eq_append_iff.1 hds with ⟨more, hmore, _⟩ | ⟨more, hmore, htail⟩
      · exact ⟨more, hmore⟩
      · cases more with
        | nil => exact ⟨[], by simpa using hmore.symm⟩
        | cons c more =>
            have hc : '\n' = c := (List.cons.inj htail).1
            refine absurd ?_ (newline_notMem_clearFragment depth)
            rw [hmore, hc]
            simp
    obtain ⟨more, rfl⟩ := hmarker
    have hne : (clearFragment depth).toList ++ more ≠ [] := by
      rw [toList_clearFragment]
      simp
    refine ⟨more ++ '\n' :: (piece ++ following), ?_⟩
    have hreach := hinside.append_line hne hline (piece ++ following)
    rwa [List.append_assoc] at hreach
  · exact ⟨rest, ((Reaches.line hline _).trans hpiece).trans hbehind⟩

/-- Text that does not swallow what follows leaves a marker in sight, wherever it goes. -/
theorem insert (h : Sighted depth b.after) (hclosed : Closed text) (mode : InjectionMode) :
    Sighted depth (b.insert mode text).after := by
  cases mode with
  | precise => exact .of_reaches (hclosed _ _) h
  | line =>
      obtain ⟨line, following, hline, hafter | hafter, hinsert⟩ := b.insert_line_after text
      · -- there is no next line yet, so the marker is on this one
        obtain ⟨rest, hrest⟩ := h
        rw [hafter.1] at hrest
        have hne : (clearFragment depth).toList ++ rest ≠ [] := by
          rw [toList_clearFragment]
          simp
        have hreach := hrest.append_line hne hline
          (Buffer.padded (some '\n') text.toList following.head? ++ following)
        rw [List.append_assoc, ← hinsert] at hreach
        exact ⟨_, hreach⟩
      · rw [hafter] at h
        rw [hinsert]
        exact h.insert_line hline (hclosed _ _)

/-- The text that deferral splices in puts a marker in sight. -/
theorem insert_fragment (b : Buffer) (mode : InjectionMode) (depth : Nat) :
    Sighted depth (b.insert mode (dispatchFragment depth)).after := by
  have hpiece : ∀ left right rest, Sighted depth
      (Buffer.padded left (dispatchFragment depth).toList right ++ rest) := by
    intro left right rest
    unfold Buffer.padded
    dsimp only
    rw [List.append_assoc, List.append_assoc]
    have hfragment := reaches_clearFragment depth
      ((if Buffer.fuses (dispatchFragment depth).toList.getLast? right then [' '] else []) ++ rest)
    split
    · exact ⟨_, .blank rfl hfragment⟩
    · exact ⟨_, hfragment⟩
  cases mode with
  | precise => exact hpiece _ _ _
  | line =>
      obtain ⟨line, following, hline, _, hinsert⟩ := b.insert_line_after (dispatchFragment depth)
      rw [hinsert]
      exact .of_reaches (Reaches.line hline _) (hpiece _ _ _)

end Sighted

end TwoPhase
