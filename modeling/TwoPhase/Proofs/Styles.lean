import TwoPhase.Proofs.Text.Lines

/-!
# Styled and plain diagnostics

A diagnostic is written with styles or without.  What a terminal makes of the styled form is read
off the text alone: `signs` takes it apart into characters that are shown and sequences that set a
style.  If no text in the diagnostic or in its source has an escape character, then every sequence
was written for a piece of the diagnostic.  So the text without its sequences is the plain form, and
each style that is opened is reset before the next one is (`Closes`).

A diagnostic is a list of pieces, and all of this is proved of lists of pieces (`signs_writeAll`).
What remains is that pieces are bare: whatever is written between the texts of a diagnostic has no
escape character either.
-/

namespace TwoPhase

open Text (Boundary byteLength)

/-! ## Texts for a terminal -/

namespace Terminal

/-- The character that a sequence begins with. -/
def escape : Char := '\x1b'

/-- A text without escape characters, so that no sequence begins in it. -/
def Bare (text : String) : Prop := escape ∉ text.toList

instance (text : String) : Decidable (Bare text) := inferInstanceAs (Decidable (¬_))

/-- Whether a character can stand between the bracket and the `m` of a sequence. -/
def isParameter (c : Char) : Bool := c.isDigit || c == ';'

/-- The parameters of the sequence `ESC [ … m` that a text begins with, and what is behind it. -/
def sequence? : List Char → Option (List Char × List Char)
  | '\x1b' :: '[' :: cs =>
    match cs.dropWhile isParameter with
    | 'm' :: rest => some (cs.takeWhile isParameter, rest)
    | _ => none
  | _ => none

/-- What a terminal takes for one sign. -/
inductive Sign where
  | shown (c : Char)
  | sequence (parameters : List Char)
  deriving DecidableEq, Repr

namespace Sign

def shown? : Sign → Option Char
  | shown c => some c
  | sequence _ => none

def parameters? : Sign → Option (List Char)
  | shown _ => none
  | sequence parameters => some parameters

theorem filterMap_shown? (cs : List Char) : (cs.map shown).filterMap shown? = cs := by
  rw [List.filterMap_map]
  exact List.filterMap_some

theorem filterMap_parameters? (cs : List Char) : (cs.map shown).filterMap parameters? = [] := by
  rw [List.filterMap_map]
  exact List.filterMap_eq_nil_iff.2 fun _ _ => rfl

end Sign

variable {cs rest parameters : List Char} {c : Char}

theorem length_lt_of_sequence? (h : sequence? cs = some (parameters, rest)) :
    rest.length < cs.length := by
  unfold sequence? at h
  split at h
  · rename_i cs
    split at h
    · rename_i behind hbehind
      cases h
      have hle := (List.dropWhile_suffix isParameter (l := cs)).length_le
      rw [hbehind] at hle
      simp only [List.length_cons] at hle ⊢
      omega
    · cases h
  · cases h

/-- The signs of a text.  An escape character that begins no sequence is shown. -/
def signs : List Char → List Sign
  | [] => []
  | c :: cs =>
    match _h : sequence? (c :: cs) with
    | some (parameters, rest) => .sequence parameters :: signs rest
    | none => .shown c :: signs cs
termination_by cs => cs.length
decreasing_by
  · exact length_lt_of_sequence? ‹_›
  · exact Nat.lt_succ_self _

/-- A text without its sequences. -/
def erase (text : String) : String := String.ofList ((signs text.toList).filterMap Sign.shown?)

/-- The sequences of a text in their order, each by its parameters. -/
def sequences (text : String) : List (List Char) := (signs text.toList).filterMap Sign.parameters?

/-- The parameters of the sequence that closes any style. -/
def reset : List Char := ['0']

/-- Sequences of which each that opens a style is followed by the reset, so that no style is open
where the next one opens, or at the end. -/
inductive Closes : List (List Char) → Prop
  | nil : Closes []
  | style {opening : List Char} {more : List (List Char)} (hopens : opening ≠ reset)
      (hmore : Closes more) : Closes (opening :: reset :: more)

/-! ### Signs -/

theorem sequence?_of_ne (h : c ≠ escape) (cs : List Char) : sequence? (c :: cs) = none := by
  unfold sequence?
  split
  · rename_i heq
    exact absurd (List.cons.inj heq).1 h
  · rfl

theorem sequence?_append (h : ∀ c ∈ parameters, isParameter c = true) (rest : List Char) :
    sequence? (escape :: '[' :: (parameters ++ 'm' :: rest)) = some (parameters, rest) := by
  have hbehind : ('m' :: rest).takeWhile isParameter = [] ∧
      ('m' :: rest).dropWhile isParameter = 'm' :: rest := ⟨rfl, rfl⟩
  simp only [sequence?, escape, List.takeWhile_append_of_pos h, List.dropWhile_append_of_pos h,
    hbehind, List.append_nil]

theorem signs_nil : signs [] = [] := by rw [signs]

theorem signs_of_some (h : sequence? (c :: cs) = some (parameters, rest)) :
    signs (c :: cs) = .sequence parameters :: signs rest := by
  rw [signs]
  split
  · rename_i hsome
    cases h.symm.trans hsome
    rfl
  · rename_i hnone
    cases h.symm.trans hnone

theorem signs_of_none (h : sequence? (c :: cs) = none) :
    signs (c :: cs) = .shown c :: signs cs := by
  rw [signs]
  split
  · rename_i hsome
    cases h.symm.trans hsome
  · rfl

/-- Where there is no escape character, all is shown. -/
theorem signs_append (h : escape ∉ cs) (rest : List Char) :
    signs (cs ++ rest) = cs.map .shown ++ signs rest := by
  induction cs with
  | nil => rfl
  | cons c cs ih =>
      rw [List.mem_cons, not_or] at h
      rw [List.cons_append, signs_of_none (sequence?_of_ne (Ne.symm h.1) _), ih h.2]
      rfl

theorem signs_sequence (h : ∀ c ∈ parameters, isParameter c = true) (rest : List Char) :
    signs (escape :: '[' :: (parameters ++ 'm' :: rest)) = .sequence parameters :: signs rest :=
  signs_of_some (sequence?_append h rest)

/-! ### Bare texts -/

variable {s t : String}

theorem bare_append : Bare (s ++ t) ↔ Bare s ∧ Bare t := by
  simp [Bare, String.toList_append, not_or]

theorem bare_enclosed {u : String} (hs : Bare s) (ht : Bare t) (hu : Bare u) : Bare (s ++ t ++ u) :=
  bare_append.2 ⟨bare_append.2 ⟨hs, ht⟩, hu⟩

theorem bare_ofList : Bare (String.ofList cs) ↔ escape ∉ cs := by
  rw [Bare, String.toList_ofList]

/-- A number is written with digits. -/
theorem bare_repr (n : Nat) : Bare n.repr := by
  rw [Bare, Nat.toList_repr]
  intro hmem
  exact absurd (Nat.isDigit_of_mem_toDigits (by decide) (by decide) hmem) (by decide)

theorem bare_replicate (h : escape ≠ c) (n : Nat) : Bare (String.ofList (List.replicate n c)) :=
  bare_ofList.2 fun hmem => h (List.eq_of_mem_replicate hmem)

end Terminal

/-! ## Pieces -/

open Terminal (Bare Closes Sign signs erase sequences bare_append bare_enclosed bare_ofList
  bare_repr bare_replicate)

/-- The parameters of the sequence that opens a style. -/
def Paint.parameters : Paint → List Char
  | error => "1;31".toList
  | warning => "1;33".toList
  | help => "1;32".toList
  | strong => "1".toList
  | secondary => "1;34".toList

namespace Paint

variable (paint : Paint)

theorem toList_opening :
    paint.opening.toList = Terminal.escape :: '[' :: (paint.parameters ++ ['m']) := by
  cases paint <;> rfl

theorem isParameter_of_mem {c : Char} (h : c ∈ paint.parameters) :
    Terminal.isParameter c = true := by
  have hall : paint.parameters.all Terminal.isParameter = true := by cases paint <;> decide
  exact List.all_eq_true.1 hall c h

theorem parameters_ne_reset : paint.parameters ≠ Terminal.reset := by cases paint <;> decide

theorem signs_opening (rest : List Char) :
    signs (paint.opening.toList ++ rest) = .sequence paint.parameters :: signs rest := by
  rw [toList_opening, List.cons_append, List.cons_append, List.append_assoc]
  exact Terminal.signs_sequence (fun _ => paint.isParameter_of_mem) rest

theorem signs_reset (rest : List Char) :
    signs (reset.toList ++ rest) = .sequence Terminal.reset :: signs rest := by
  have hreset : reset.toList ++ rest = Terminal.escape :: '[' :: (Terminal.reset ++ 'm' :: rest) :=
    rfl
  rw [hreset]
  refine Terminal.signs_sequence (fun c hmem => ?_) rest
  obtain rfl := List.mem_singleton.1 hmem
  rfl

end Paint

namespace Piece

variable {piece : Piece} {pieces : List Piece}

/-- The signs of a styled piece: its text, between two sequences if it has a style. -/
def written (piece : Piece) : List Sign :=
  match piece.paint with
  | none => piece.text.toList.map .shown
  | some paint =>
    .sequence paint.parameters :: (piece.text.toList.map .shown ++ [.sequence Terminal.reset])

/-- The sequences of a styled piece, in their order. -/
def styles (piece : Piece) : List (List Char) :=
  match piece.paint with
  | none => []
  | some paint => [paint.parameters, Terminal.reset]

theorem shown_written (piece : Piece) :
    piece.written.filterMap Sign.shown? = piece.text.toList := by
  unfold written
  cases piece.paint with
  | none => exact Sign.filterMap_shown? _
  | some paint =>
      have hsequence : Sign.shown? (.sequence paint.parameters) = none := rfl
      rw [List.filterMap_cons_none hsequence, List.filterMap_append, Sign.filterMap_shown?]
      exact List.append_nil _

theorem parameters_written (piece : Piece) :
    piece.written.filterMap Sign.parameters? = piece.styles := by
  unfold written styles
  cases piece.paint with
  | none => exact Sign.filterMap_parameters? _
  | some paint =>
      have hsequence : Sign.parameters? (.sequence paint.parameters) = some paint.parameters := rfl
      rw [List.filterMap_cons_some hsequence, List.filterMap_append, Sign.filterMap_parameters?]
      rfl

/-- A styled piece is read as it was written, whatever follows it. -/
theorem signs_write (h : Bare piece.text) (rest : List Char) :
    signs ((piece.write true).toList ++ rest) = piece.written ++ signs rest := by
  unfold write written
  cases piece.paint with
  | none => exact Terminal.signs_append h rest
  | some paint =>
      simp only [String.toList_append, List.append_assoc, Paint.signs_opening,
        Terminal.signs_append h, Paint.signs_reset, List.cons_append, List.nil_append]

theorem toList_writeAll (colors : Bool) (pieces : List Piece) :
    (writeAll colors pieces).toList = pieces.flatMap fun piece => (piece.write colors).toList := by
  rw [writeAll, String.toList_join, List.flatMap_map]

theorem signs_writeAll (h : ∀ piece ∈ pieces, Bare piece.text) :
    signs (writeAll true pieces).toList = pieces.flatMap written := by
  rw [toList_writeAll]
  induction pieces with
  | nil => exact Terminal.signs_nil
  | cons piece pieces ih =>
      rw [List.forall_mem_cons] at h
      rw [List.flatMap_cons, signs_write h.1, ih h.2, List.flatMap_cons]

/-- The styled form without its sequences is the plain form. -/
theorem erase_writeAll (h : ∀ piece ∈ pieces, Bare piece.text) :
    erase (writeAll true pieces) = writeAll false pieces := by
  have hplain (piece : Piece) : (piece.write false).toList = piece.text.toList := by
    unfold write
    cases piece.paint <;> rfl
  rw [erase, signs_writeAll h, List.filterMap_flatMap, ← String.toList_inj, toList_writeAll,
    String.toList_ofList]
  simp only [shown_written, hplain]

theorem sequences_writeAll (h : ∀ piece ∈ pieces, Bare piece.text) :
    sequences (writeAll true pieces) = pieces.flatMap styles := by
  rw [sequences, signs_writeAll h, List.filterMap_flatMap]
  simp only [parameters_written]

/-- In the styled form every style is reset before the next one opens. -/
theorem closes_flatMap_styles (pieces : List Piece) : Closes (pieces.flatMap styles) := by
  induction pieces with
  | nil => exact .nil
  | cons piece pieces ih =>
      rw [List.flatMap_cons, styles]
      cases piece.paint with
      | none => exact ih
      | some paint => exact .style paint.parameters_ne_reset ih

end Piece

/-! ## What is written of a diagnostic -/

/-- A diagnostic none of whose texts has an escape character, nor has the source that it points
into. -/
structure Diagnostic.BareTexts (source : Option SourceText) (d : Diagnostic) : Prop where
  message : Bare d.message
  labels : ∀ label ∈ d.labels, Bare label.message
  notes : ∀ note ∈ d.notes, Bare note
  suggestions : ∀ suggestion ∈ d.suggestions, Bare suggestion
  source : ∀ text, source = some text → Bare text.path ∧ Bare text.text

theorem Span.bare_render (span : Span) : Bare span.render := by
  simp only [render, toString, bare_append, bare_repr, true_and, and_true]
  decide

theorem SourceText.bare_location {source : SourceText} (h : Bare source.path)
    (place : Text.Position) : Bare (source.location place) := by
  have hcolon : Bare ":" := by decide
  simp only [location, toString, bare_append, bare_repr, h, hcolon, and_self]

/-- The line of an excerpt is part of the source. -/
theorem SourceText.bare_excerpt {source : SourceText} {span : Span} {excerpt : Excerpt}
    (h : Bare source.text) (hexcerpt : source.excerpt? span = some excerpt) :
    Bare (String.ofList excerpt.line) := by
  obtain ⟨line, hline, hmade⟩ := Option.bind_eq_some_iff.1 hexcerpt
  cases hmade
  exact bare_ofList.2 fun hmem => h (Text.subset_of_lineAt? hline hmem)

namespace Diagnostic

variable {source : Option SourceText} {d : Diagnostic} {label : Label} {pieces : List Piece}

theorem bare_labelPieces (hmessage : Bare label.message)
    (hsource : ∀ text, source = some text → Bare text.path ∧ Bare text.text)
    (h : labelPieces? source label = some pieces) : ∀ piece ∈ pieces, Bare piece.text := by
  have harrow : Bare (if label.isPrimary then "  --> " else "      ") := by split <;> decide
  cases source with
  | none =>
      cases h
      simp only [List.forall_mem_cons]
      exact ⟨harrow, label.span.bare_render, by decide, hmessage, by decide, by simp⟩
  | some text =>
      obtain ⟨hpath, htext⟩ := hsource text rfl
      obtain ⟨excerpt, hexcerpt, hmade⟩ := Option.bind_eq_some_iff.1 h
      cases hmade
      have hline : Bare s!"   | {String.ofList excerpt.line}\n" :=
        bare_enclosed (by decide) (SourceText.bare_excerpt htext hexcerpt) (by decide)
      have hindent : Bare ("   | " ++ String.ofList (List.replicate excerpt.indent ' ')) :=
        bare_append.2 ⟨by decide, bare_replicate (by decide) _⟩
      have hmark : Terminal.escape ≠ if label.isPrimary then '^' else '-' := by split <;> decide
      simp only [List.forall_mem_cons]
      exact ⟨harrow, SourceText.bare_location hpath _, by decide, hmessage, by decide, hline,
        hindent, bare_replicate hmark _, by decide, by simp⟩

/-- Notes and suggestions are written in the same way. -/
theorem bare_remarks {texts : List String} (paint : Paint) {word : String} (hword : Bare word)
    (h : ∀ text ∈ texts, Bare text) :
    ∀ piece ∈ texts.flatMap fun text =>
      [Piece.plain "  = ", .painted paint word, .plain s!": {text}\n"], Bare piece.text := by
  rw [List.forall_mem_flatMap]
  intro text hmem
  have htext : Bare s!": {text}\n" := bare_enclosed (by decide) (h text hmem) (by decide)
  simp only [List.forall_mem_cons]
  exact ⟨by decide, hword, htext, by simp⟩

theorem bare_pieces (hbare : d.BareTexts source) (h : d.pieces? source = some pieces) :
    ∀ piece ∈ pieces, Bare piece.text := by
  obtain ⟨lists, hlists, hmade⟩ := Option.bind_eq_some_iff.1 h
  cases hmade
  simp only [List.forall_mem_append]
  refine ⟨⟨⟨⟨?_, ?_⟩, ?_⟩, ?_⟩, ?_⟩
  · -- the heading
    have hseverity : Bare d.severity.name := by cases d.severity <;> decide
    have hcode : Bare s!"[{d.code.id}]" := by cases d.code <;> decide
    have hmessage : Bare s!": {d.message}\n" :=
      bare_enclosed (by decide) hbare.message (by decide)
    simp only [List.forall_mem_cons]
    exact ⟨hseverity, hcode, hmessage, by simp⟩
  · -- the labels, each with pieces of its own
    intro piece hpiece
    obtain ⟨list, hlist, hpiece⟩ := List.mem_flatten.1 hpiece
    have hmade : some list ∈ d.labels.map (labelPieces? source) := by
      rw [mapM_eq_some_iff.1 hlists]
      exact List.mem_map_of_mem hlist
    obtain ⟨label, hlabel, hpieces⟩ := List.mem_map.1 hmade
    exact bare_labelPieces (hbare.labels label hlabel) hbare.source hpieces piece hpiece
  · exact bare_remarks .strong (by decide) hbare.notes
  · exact bare_remarks .help (by decide) hbare.suggestions
  · decide

theorem labelPieces?_isSome_iff : (labelPieces? source label).isSome ↔
    ∀ text, source = some text →
      Boundary text.text.toList (min label.span.start (byteLength text.text.toList)) := by
  cases source with
  | none => simp [labelPieces?]
  | some text =>
      have hline : (labelPieces? (some text) label).isSome
          = (Text.lineAt? text.text.toList label.span.start).isSome := by
        cases hline : Text.lineAt? text.text.toList label.span.start <;>
          simp [labelPieces?, SourceText.excerpt?, hline]
      rw [hline, Text.lineAt?_isSome_iff]
      simp

/-- The first piece of a diagnostic is its severity, in a style. -/
theorem exists_of_pieces? (h : d.pieces? source = some pieces) :
    ∃ more, pieces = .painted (Paint.ofSeverity d.severity) d.severity.name :: more := by
  obtain ⟨lists, -, hmade⟩ := Option.bind_eq_some_iff.1 h
  cases hmade
  exact ⟨_, rfl⟩

/-- The styled form of a diagnostic without its sequences is the plain form, if none of its texts
has an escape character.  It opens styles, and each of them is reset before the next one opens and
before the block ends.  Both forms exist unless a label starts inside a character of the source. -/
theorem styled_agrees_with_plain (source : Option SourceText) (d : Diagnostic)
    (hbare : d.BareTexts source) :
    (d.render? true source).map erase = d.render? false source ∧
      (∀ rendered, d.render? true source = some rendered →
        sequences rendered ≠ [] ∧ Closes (sequences rendered)) ∧
      ∀ colors, (d.render? colors source).isSome ↔ ∀ label ∈ d.labels, ∀ text,
        source = some text →
          Boundary text.text.toList (min label.span.start (byteLength text.text.toList)) := by
  refine ⟨?_, ?_, ?_⟩
  · unfold render?
    cases hpieces : d.pieces? source with
    | none => rfl
    | some pieces => exact congrArg some (Piece.erase_writeAll (bare_pieces hbare hpieces))
  · intro rendered hrendered
    obtain ⟨pieces, hpieces, rfl⟩ := Option.map_eq_some_iff.1 hrendered
    rw [Piece.sequences_writeAll (bare_pieces hbare hpieces)]
    refine ⟨?_, Piece.closes_flatMap_styles pieces⟩
    -- the severity in front of the message has a style
    obtain ⟨more, rfl⟩ := exists_of_pieces? hpieces
    exact List.cons_ne_nil _ _
  · intro colors
    rw [render?_isSome_iff]
    exact forall₂_congr fun _ _ => labelPieces?_isSome_iff

/-- A bracket and an `m` that no escape character stands before are kept in both forms. -/
theorem styled_agrees_with_plain_brackets :
    let source : SourceText := ⟨"a.kn", "let é;\nx"⟩
    let d := (((error .unexpectedToken "[1m").withLabel ⟨4, 6⟩ "here").withSecondaryLabel ⟨8, 9⟩
      "m").withNote "[0m"
    d.BareTexts (some source) ∧ ∃ rendered, d.render? true (some source) = some rendered ∧
      erase rendered = "error[E1001]: [1m\n" ++ "  --> a.kn:1:5: here\n   | let é;\n   |     ^^\n"
        ++ "      a.kn:2:1: m\n   | x\n   | -\n" ++ "  = note: [0m\n\n" ∧
      Closes (sequences rendered) := by
  intro source d
  have hbare : d.BareTexts (some source) :=
    { message := by decide
      labels := by decide
      notes := by decide
      suggestions := by decide
      source := by
        rintro text ⟨⟩
        decide }
  obtain ⟨herase, hcloses, _⟩ := styled_agrees_with_plain (some source) d hbare
  have hplain : d.render? false (some source) = some ("error[E1001]: [1m\n"
      ++ "  --> a.kn:1:5: here\n   | let é;\n   |     ^^\n"
      ++ "      a.kn:2:1: m\n   | x\n   | -\n" ++ "  = note: [0m\n\n") := by
    decide +kernel
  rw [hplain] at herase
  obtain ⟨rendered, hrendered, hsame⟩ := Option.map_eq_some_iff.1 herase
  exact ⟨hbare, rendered, hrendered, hsame, (hcloses rendered hrendered).2⟩

/-! ## The closing line -/

theorem bare_counted (count : Nat) {noun : String} (h : Bare noun) : Bare (counted count noun) := by
  have hone : Bare "1 " := by decide
  have hspace : Bare " " := by decide
  have hplural : Bare "s" := by decide
  unfold counted
  split <;> simp only [toString, bare_append, bare_repr, h, hone, hspace, hplural, and_self]

theorem bare_summaryPieces (errors warnings : Nat) :
    ∀ piece ∈ summaryPieces errors warnings, Bare piece.text := by
  have hcount : Bare (counted warnings "warning") := bare_counted warnings (by decide)
  have hemitted {count : String} (h : Bare count) : Bare s!"{count} emitted" :=
    bare_append.2 ⟨h, by decide⟩
  have hmore {emitted : String} (h : Bare emitted) :
      Bare (if warnings = 0 then "" else s!"; {emitted}") := by
    split
    · decide
    · exact bare_append.2 ⟨by decide, h⟩
  have hcause : Bare (if errors = 1 then "previous error" else s!"{errors} previous errors") := by
    split
    · decide
    · exact bare_append.2 ⟨bare_repr errors, by decide⟩
  unfold summaryPieces
  split
  · exact List.forall_mem_nil _
  · simp only [List.forall_mem_cons]
    exact ⟨by decide, bare_enclosed (by decide) (hemitted hcount) (by decide), by simp⟩
  · simp only [List.forall_mem_cons]
    have haborting := bare_enclosed (by decide : Bare ": aborting due to ") hcause
      (hmore (hemitted hcount))
    exact ⟨by decide, bare_append.2 ⟨haborting, by decide⟩, by simp⟩

/-- The styled form of the closing line without its sequences is the plain form, and its styles are
reset. -/
theorem summary_styled_agrees (errors warnings : Nat) :
    erase (summary true errors warnings) = summary false errors warnings ∧
      Closes (sequences (summary true errors warnings)) := by
  have hbare := bare_summaryPieces errors warnings
  refine ⟨Piece.erase_writeAll hbare, ?_⟩
  rw [summary, Piece.sequences_writeAll hbare]
  exact Piece.closes_flatMap_styles _

end Diagnostic

end TwoPhase
