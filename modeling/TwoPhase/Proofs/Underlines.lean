import TwoPhase.Proofs.Delivery
import TwoPhase.Proofs.Sound.Spans

/-!
# What an underline marks

The excerpt of a label is the line that the label starts on, with marks under it from the label's
first character on.  The marks are clipped to the line in characters and otherwise counted in bytes.
So there is one mark for each character that the label covers on its line wherever these are
characters of one byte, or the label goes on to the end of the line, and there are too many marks
everywhere else.
-/

namespace TwoPhase

open Text (Boundary byteLength cut lastLine slice?)

variable {cs front rest covered behind : List Char} {stop bytes : Nat}

/-- The text from the start of a span to its end, or to the end of the line if that is earlier. -/
def Span.labelled (span : Span) (cs : List Char) : List Char :=
  ((slice? cs span.start span.stop).getD []).takeWhile (· != '\n')

namespace Diagnostic

/-- What is written of a label in front of its excerpt. -/
def labelHeading (source : SourceText) (label : Label) : List Piece :=
  [.plain (if label.isPrimary then "  --> " else "      "),
    .painted .strong (source.location (Text.position source.text.toList label.span.start)),
    .plain ": ", .painted (Paint.ofLabel label) label.message, .plain "\n"]

/-- The excerpt of a label that starts between two parts of a line. -/
def excerptPieces (label : Label) (before behind : List Char) (marks : Nat) : List Piece :=
  [.plain s!"   | {String.ofList (before ++ behind)}\n",
    .plain ("   | " ++ String.ofList (List.replicate before.length ' ')),
    .painted (Paint.ofLabel label)
      (String.ofList (List.replicate marks (if label.isPrimary then '^' else '-'))),
    .plain "\n"]

/-- A label is written with the line around its start.  Its marks start there, and there are as many
as it has bytes, but no more than the rest of the line has characters, and at least one. -/
theorem labelPieces?_of_cut {source : SourceText} {label : Label}
    (hcut : cut source.text.toList label.span.start = some (front, rest)) :
    labelPieces? (some source) label = some (labelHeading source label
      ++ excerptPieces label (lastLine front) (rest.takeWhile (· != '\n'))
        (min (max label.span.length 1) (max (rest.takeWhile (· != '\n')).length 1))) := by
  obtain ⟨htext, hstart⟩ := Text.cut_eq_some_iff.1 hcut
  have hline := Text.lineAt?_append front rest
  have hplace := Text.position_append front rest
  rw [← htext, hstart] at hline hplace
  simp [labelPieces?, SourceText.excerpt?, Excerpt.indent, hline, hplace, labelHeading,
    excerptPieces]

end Diagnostic

/-! ## Characters and bytes -/

theorem Text.length_le_byteLength (cs : List Char) : cs.length ≤ byteLength cs := by
  induction cs with
  | nil => exact Nat.le_refl _
  | cons c cs ih =>
      have hpos : 0 < c.utf8Size := c.utf8Size_pos
      rw [List.length_cons, byteLength_cons]
      omega

/-- A text has a byte for each character if no character has more than one. -/
theorem Text.byteLength_eq_length_iff :
    byteLength cs = cs.length ↔ ∀ c ∈ cs, c.utf8Size = 1 := by
  induction cs with
  | nil => simp
  | cons c cs ih =>
      have hpos : 0 < c.utf8Size := c.utf8Size_pos
      have hle := length_le_byteLength cs
      rw [List.forall_mem_cons, ← ih, List.length_cons, byteLength_cons]
      omega

/-- What counting bytes makes of the marks for a part of what is behind a label's start. -/
theorem marks_spec (hbegins : covered <+: behind) (hbytes : byteLength covered ≤ bytes)
    (hends : covered = behind ∨ byteLength covered = bytes) :
    max covered.length 1 ≤ min (max bytes 1) (max behind.length 1) ∧
      (min (max bytes 1) (max behind.length 1) = max covered.length 1 ↔
        covered = behind ∨ ∀ c ∈ covered, c.utf8Size = 1) := by
  have hlength : covered.length ≤ behind.length := hbegins.length_le
  have hsize : covered.length ≤ byteLength covered := Text.length_le_byteLength covered
  have hall : covered = behind ↔ covered.length = behind.length :=
    ⟨congrArg List.length, hbegins.eq_of_length⟩
  have hnone : covered.length = 0 → byteLength covered = 0 := by
    intro hzero
    rw [List.eq_nil_of_length_eq_zero hzero]
    rfl
  rw [← Text.byteLength_eq_length_iff]
  rw [hall] at hends ⊢
  omega

/-! ## Labels -/

/-- Where a boundary of a text is no earlier than some part of it, it is behind that part. -/
theorem Text.Boundary.exists_between (h : Boundary (front ++ rest) stop)
    (hle : byteLength front ≤ stop) : ∃ middle more, rest = middle ++ more ∧
      byteLength (front ++ middle) = stop := by
  obtain ⟨part, hpart, rfl⟩ := h
  rcases List.prefix_or_prefix_of_prefix hpart (List.prefix_append front rest) with
    ⟨left, rfl⟩ | ⟨middle, rfl⟩
  · have hnone : left = [] := by
      apply Scan.byteLength_eq_zero
      rw [byteLength_append] at hle
      omega
    exact ⟨[], rest, rfl, by rw [hnone, List.append_nil, List.append_nil]⟩
  · obtain ⟨more, hmore⟩ := hpart
    rw [List.append_assoc, List.append_cancel_left_eq] at hmore
    exact ⟨middle, more, hmore.symm, rfl⟩

/-- The text that a label covers on its line is the first part of what is behind its start.  Either
it is all of that, or it has the bytes of the label. -/
theorem labelled_spec {span : Span} (hcut : cut cs span.start = some (front, rest))
    (hstop : Boundary cs span.stop) :
    span.labelled cs <+: rest.takeWhile (· != '\n') ∧
      byteLength (span.labelled cs) ≤ span.length ∧
      (span.labelled cs = rest.takeWhile (· != '\n') ∨
        byteLength (span.labelled cs) = span.length) := by
  obtain ⟨rfl, hstart⟩ := Text.cut_eq_some_iff.1 hcut
  unfold Span.labelled Span.length
  by_cases hle : span.start ≤ span.stop
  · obtain ⟨middle, more, rfl, hend⟩ := hstop.exists_between (hstart ▸ hle)
    have hslice : slice? (front ++ (middle ++ more)) span.start span.stop = some middle := by
      rw [← List.append_assoc, ← hstart, ← hend]
      exact Text.slice?_append front middle more
    have hbytes : byteLength middle = span.stop - span.start := by
      rw [← hend, ← hstart, Text.byteLength_append, Nat.add_sub_cancel_left]
    rw [hslice, Option.getD_some, ← hbytes, List.takeWhile_append]
    split
    · -- the label ends on the line
      rename_i hwhole
      rw [(List.takeWhile_prefix _).eq_of_length hwhole]
      exact ⟨List.prefix_append _ _, Nat.le_refl _, .inr rfl⟩
    · exact ⟨List.prefix_rfl, Text.byteLength_mono (List.takeWhile_prefix _), .inl rfl⟩
  · have hslice : slice? (front ++ rest) span.start span.stop = none := by
      rw [slice?, if_neg hle]
    rw [hslice]
    refine ⟨List.nil_prefix, Nat.zero_le _, .inr ?_⟩
    rw [Nat.sub_eq_zero_of_le (Nat.le_of_not_le hle)]
    rfl

namespace Diagnostic

/-- A label between characters of a text is written with the line that it starts on, and with marks
from its first character on.  There is a mark for each character that it covers on that line, and at
least one, just where these have one byte each or go up to the end of the line.  Elsewhere there are
more marks than characters, as many as bytes but for those past the end of the line. -/
theorem underline_covers (source : SourceText) (label : Label)
    (hstart : Boundary source.text.toList label.span.start)
    (hstop : Boundary source.text.toList label.span.stop) :
    ∃ front rest, cut source.text.toList label.span.start = some (front, rest) ∧
      let before := lastLine front
      let behind := rest.takeWhile (· != '\n')
      let labelled := label.span.labelled source.text.toList
      let marks := min (max label.span.length 1) (max behind.length 1)
      Text.lineAt? source.text.toList label.span.start = some (before ++ behind) ∧
        labelPieces? (some source) label
          = some (labelHeading source label ++ excerptPieces label before behind marks) ∧
        max labelled.length 1 ≤ marks ∧
        (marks = max labelled.length 1 ↔
          labelled = behind ∨ ∀ c ∈ labelled, c.utf8Size = 1) := by
  obtain ⟨front, ⟨rest, htext⟩, hfront⟩ := hstart
  have hcut : cut source.text.toList label.span.start = some (front, rest) :=
    Text.cut_eq_some_iff.2 ⟨htext.symm, hfront⟩
  obtain ⟨hbegins, hbytes, hends⟩ := labelled_spec hcut hstop
  obtain ⟨hleast, hexact⟩ := marks_spec hbegins hbytes hends
  refine ⟨front, rest, hcut, ?_, labelPieces?_of_cut hcut, hleast, hexact⟩
  rw [← htext, ← hfront]
  exact Text.lineAt?_append front rest

/-- A label that goes on past the end of its line has one mark for the one character that is left of
the line, though that has two bytes. -/
theorem underline_covers_to_line_end :
    let source : SourceText := ⟨"a.kn", "aé\nb"⟩
    let label : Label := ⟨⟨1, 5⟩, "here", true⟩
    Boundary source.text.toList 1 ∧ Boundary source.text.toList 5 ∧
      label.span.labelled source.text.toList = ['é'] ∧
      labelPieces? (some source) label
        = some (labelHeading source label ++ excerptPieces label ['a'] ['é'] 1) := by
  intro source label
  have hstart : Boundary source.text.toList 1 := ⟨['a'], by decide, by decide⟩
  have hstop : Boundary source.text.toList 5 := ⟨"aé\nb".toList, by decide, by decide⟩
  have hlabelled : label.span.labelled source.text.toList = ['é'] := by decide
  obtain ⟨front, rest, hcut, _, hpieces, _, hexact⟩ := underline_covers source label hstart hstop
  have hparts : cut source.text.toList 1 = some (['a'], ['é', '\n', 'b']) := by decide
  obtain ⟨rfl, rfl⟩ := Prod.mk.inj (Option.some.inj (hparts.symm.trans hcut))
  rw [hexact.2 (.inl hlabelled), hlabelled] at hpieces
  exact ⟨hstart, hstop, hlabelled, hpieces⟩

/-- A label that covers a single character of two bytes has two marks, the second of them under the
character behind it. -/
theorem wide_character_marked_twice :
    let source : SourceText := ⟨"a.kn", "éa"⟩
    let label : Label := ⟨⟨0, 2⟩, "here", true⟩
    Boundary source.text.toList 0 ∧ Boundary source.text.toList 2 ∧
      label.span.labelled source.text.toList = ['é'] ∧
      (labelPieces? (some source) label).map (Piece.writeAll false)
        = some "  --> a.kn:1:1: here\n   | éa\n   | ^^\n" := by
  refine ⟨.zero, ⟨['é'], by decide, by decide⟩, by decide, by decide +kernel⟩

end Diagnostic

end TwoPhase
