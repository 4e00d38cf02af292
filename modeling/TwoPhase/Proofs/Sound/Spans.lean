import TwoPhase.Buffer
import TwoPhase.Diagnostic.Render
import TwoPhase.Proofs.Text.Cuts

/-!
# Spans that fit a text

A span fits a text if it runs forwards from one boundary between characters to another.  What fits a
text fits every longer one, so the spans of tokens and trees stay good while text is spliced in
behind the cursor.  A diagnostic whose labels fit a text can be rendered with it.
-/

namespace TwoPhase

variable {cs ds : List Char} {offset : Nat}

/-- An offset between two characters of a text, or at one of its ends. -/
def Text.Boundary (cs : List Char) (offset : Nat) : Prop :=
  ∃ front, front <+: cs ∧ Text.byteLength front = offset

/-- A span that runs forwards between two boundaries of a text. -/
structure Span.Fits (span : Span) (cs : List Char) : Prop where
  ordered : span.start ≤ span.stop
  start : Text.Boundary cs span.start
  stop : Text.Boundary cs span.stop

/-! ## Boundaries -/

namespace Text

theorem byteLength_mono {front : List Char} (h : front <+: cs) :
    byteLength front ≤ byteLength cs := by
  obtain ⟨rest, rfl⟩ := h
  rw [byteLength_append]
  exact Nat.le_add_right _ _

namespace Boundary

theorem zero : Boundary cs 0 := ⟨[], List.nil_prefix, rfl⟩

theorem mono (h : Boundary cs offset) (hbegins : cs <+: ds) : Boundary ds offset := by
  obtain ⟨front, hfront, hlength⟩ := h
  exact ⟨front, hfront.trans hbegins, hlength⟩

theorem le_byteLength (h : Boundary cs offset) : offset ≤ byteLength cs := by
  obtain ⟨front, hfront, rfl⟩ := h
  exact byteLength_mono hfront

end Boundary

/-- Where a text is cut between characters there is a line. -/
theorem Boundary.lineAt? (h : Boundary cs offset) : (lineAt? cs offset).isSome := by
  obtain ⟨front, ⟨rest, rfl⟩, rfl⟩ := h
  rw [lineAt?_append]
  rfl

end Text

/-! ## Spans -/

namespace Span.Fits

variable {p q : Span}

theorem mono (h : p.Fits cs) (hbegins : cs <+: ds) : p.Fits ds :=
  ⟨h.ordered, h.start.mono hbegins, h.stop.mono hbegins⟩

theorem merge (hp : p.Fits cs) (hq : q.Fits cs) : (p.merge q).Fits cs := by
  refine ⟨?_, ?_, ?_⟩
  · calc min p.start q.start ≤ p.start := Nat.min_le_left _ _
      _ ≤ p.stop := hp.ordered
      _ ≤ max p.stop q.stop := Nat.le_max_left _ _
  · rcases Nat.le_total p.start q.start with hle | hle
    · simpa only [Span.merge, Nat.min_eq_left hle] using hp.start
    · simpa only [Span.merge, Nat.min_eq_right hle] using hq.start
  · rcases Nat.le_total p.stop q.stop with hle | hle
    · simpa only [Span.merge, Nat.max_eq_right hle] using hq.stop
    · simpa only [Span.merge, Nat.max_eq_left hle] using hp.stop

/-- The span of the last part of a text. -/
theorem last {front piece : List Char} (h : p.start = Text.byteLength front)
    (h' : p.stop = p.start + Text.byteLength piece) : p.Fits (front ++ piece) := by
  refine ⟨h' ▸ Nat.le_add_right _ _, ⟨front, List.prefix_append _ _, h.symm⟩, ?_⟩
  exact ⟨front ++ piece, List.prefix_rfl, by rw [Text.byteLength_append, h', h]⟩

end Span.Fits

/-! ## Tokens -/

/-- A token starts behind what was skipped. -/
theorem Scan.first_start (offset : Nat) (cs : List Char) :
    (first offset cs).token.span.start = offset + Text.byteLength (first offset cs).skipped := by
  unfold first
  dsimp only
  split <;> simp [Span.point]

namespace Buffer

variable (b : Buffer)

/-- The text that was consumed. -/
def behind : List Char := b.before.reverse

theorem behind_le : b.behind <+: b.chars := List.prefix_append _ _

theorem behind_next :
    b.next.2.behind = b.behind ++ b.found.skipped.reverse ++ b.found.token.lexeme.reverse := by
  simp [behind, next]

theorem behind_le_next : b.behind <+: b.next.2.behind := by
  rw [behind_next, List.append_assoc]
  exact List.prefix_append _ _

/-- The token that is consumed is at the end of what was consumed then. -/
theorem next_fits : b.found.token.span.Fits b.next.2.behind := by
  have hstart := Scan.first_start b.cursor b.after
  have hstop := Scan.first_span b.cursor b.after
  rw [← b.found_eq, b.cursor_eq] at hstart hstop
  rw [behind_next]
  apply Span.Fits.last
  · rw [hstart, Text.byteLength_append, behind, Text.byteLength_reverse, Text.byteLength_reverse]
  · rw [hstop, hstart, Text.byteLength_reverse]

/-- The next token is in the text. -/
theorem found_fits : b.found.token.span.Fits b.chars := by
  rw [← b.chars_next]
  exact b.next_fits.mono b.next.2.behind_le

end Buffer

/-! ## Rendering -/

/-- Going through a list gives results just where each member has one. -/
theorem mapM_eq_some_iff {α β : Type} {f : α → Option β} {xs : List α} {ys : List β} :
    xs.mapM f = some ys ↔ xs.map f = ys.map some := by
  induction xs generalizing ys with
  | nil => cases ys <;> simp
  | cons x xs ih =>
      rw [List.mapM_cons, List.map_cons]
      cases ys with
      | nil => simp [Option.bind_eq_some_iff]
      | cons y ys =>
          rw [List.map_cons, List.cons.injEq, ← ih]
          simp [Option.bind_eq_some_iff]

namespace Diagnostic

/-- A diagnostic can be rendered just where all of its labels can. -/
theorem render?_isSome_iff (colors : Bool) (source : Option SourceText) (d : Diagnostic) :
    (d.render? colors source).isSome ↔
      ∀ label ∈ d.labels, (labelPieces? source label).isSome := by
  have hrender : (d.render? colors source).isSome ↔
      (d.labels.mapM (labelPieces? source)).isSome := by
    rw [render?, Option.isSome_map]
    cases hlabels : d.labels.mapM (labelPieces? source) <;> simp [pieces?, hlabels]
  rw [hrender, Option.isSome_iff_exists]
  constructor
  · rintro ⟨lists, hlists⟩ label hmem
    have hmem' : labelPieces? source label ∈ lists.map some := by
      rw [← mapM_eq_some_iff.1 hlists]
      exact List.mem_map_of_mem hmem
    obtain ⟨pieces, -, hpieces⟩ := List.mem_map.1 hmem'
    rw [← hpieces]
    rfl
  · intro hall
    refine ⟨d.labels.filterMap (labelPieces? source), mapM_eq_some_iff.2 ?_⟩
    rw [List.map_filterMap_some_eq_filter_map_isSome, List.filter_eq_self.2]
    intro pieces hpieces
    obtain ⟨label, hmem, rfl⟩ := List.mem_map.1 hpieces
    exact hall label hmem

/-- A diagnostic without a source can be rendered always, and one with a source if its labels fit
the text. -/
theorem render?_isSome (colors : Bool) (source : Option SourceText) (d : Diagnostic)
    (h : ∀ text, source = some text → ∀ label ∈ d.labels, label.span.Fits text.text.toList) :
    (d.render? colors source).isSome := by
  refine (render?_isSome_iff colors source d).2 fun label hmem => ?_
  cases source with
  | none => rfl
  | some text =>
      obtain ⟨line, hline⟩ := Option.isSome_iff_exists.1 (h text rfl label hmem).start.lineAt?
      simp [labelPieces?, SourceText.excerpt?, hline]

end Diagnostic

end TwoPhase
