import TwoPhase.Proofs.Delivery
import TwoPhase.Proofs.Sound.Spans
import TwoPhase.Proofs.Text.Cuts
import TwoPhase.Proofs.Buffer.Actions

/-!
# Warnings for text in front of a splice

A splice on the next line warns of the tokens that are left on the current line, since they run
first.  They are scanned in the line alone, but no token goes on where its line ends, so they are
the tokens that the buffer delivers before those of the spliced text (`leftOnLine_eq`).

A warning stays valid.  What it quotes is in front of a line break that was in the text then, and a
splice on the next line goes in behind the next line break.  So what is in front of the first one is
never changed, wherever on the line or behind it the cursor is (`Kept`).
-/

namespace TwoPhase

namespace Scan

variable {cs more before ds : List Char} {offset : Nat} {token first last : Token}

/-! ## Tokens and the text around them -/

/-- What is skipped in front of a text only moves its tokens. -/
theorem tokens_behind (offset : Nat) (h : trivia false [] cs = trivia false before ds) :
    tokens offset cs = tokens (offset + Text.byteLength before) ds := by
  obtain ⟨htoken, hrest⟩ := first_behind offset h
  rw [tokens.eq_def offset cs, tokens.eq_def _ ds]
  simp only [htoken, hrest]

/-- A line has the tokens that it would have without the lines behind it. -/
theorem tokens_line (hmore : EndsLine more) (offset : Nat) (cs : List Char) :
    tokens offset (cs ++ more) = tokens offset cs ++ tokens (offset + Text.byteLength cs) more := by
  induction offset, cs using tokens_induction with
  | nil offset cs hskip =>
      have hbytes : Text.byteLength (trivia false [] cs).read = Text.byteLength cs := by
        have hwhole := whole_trivia false [] cs
        have hrest : (trivia false [] cs).rest = [] := hskip
        rw [Split.whole, hrest, List.append_nil] at hwhole
        rw [← Text.byteLength_reverse, hwhole]
        rfl
      rw [tokens_of_skip_nil offset hskip, tokens_behind offset (trivia_through hskip hmore),
        hbytes]
      rfl
  | cons offset cs hskip hkind ih =>
      obtain ⟨c, tail, hcons⟩ := List.exists_cons_of_ne_nil hskip
      obtain ⟨hsame, hrest⟩ :=
        first_before offset (trivia_of_skip hcons) (.inl hmore) (lexeme_before (.inl hmore))
      have hlengths := first_append_lengths offset cs
      calc tokens offset (cs ++ more)
          = (Scan.first offset cs).token
              :: tokens (Scan.first offset cs).token.span.stop
                ((Scan.first offset cs).rest ++ more) := by
            rw [tokens_cons (by rw [hsame]; exact hkind), hsame, hrest]
        _ = tokens offset cs ++ tokens (offset + Text.byteLength cs) more := by
            rw [ih, hlengths, tokens_cons hkind]
            rfl

/-- A token has a character, so it ends behind where the text starts. -/
theorem lt_stop_of_mem_tokens (h : token ∈ tokens offset cs) : offset < token.span.stop := by
  induction offset, cs using tokens_induction with
  | nil offset cs hskip =>
      rw [tokens_of_skip_nil offset hskip] at h
      cases h
  | cons offset cs _ hkind ih =>
      have hstop : offset < (Scan.first offset cs).token.span.stop := by
        have hne := mt byteLength_eq_zero (first_lexeme_ne_nil hkind)
        rw [first_span]
        omega
      rw [tokens_cons hkind] at h
      rcases List.mem_cons.1 h with rfl | hmem
      · exact hstop
      · exact hstop.trans (ih hmem)

/-- A token ends between two parts of its text. -/
theorem exists_front_of_mem_tokens (h : token ∈ tokens offset cs) :
    ∃ front back, cs = front ++ back ∧ token.span.stop = offset + Text.byteLength front := by
  induction offset, cs using tokens_induction with
  | nil offset cs hskip =>
      rw [tokens_of_skip_nil offset hskip] at h
      cases h
  | cons offset cs _ hkind ih =>
      have happend := first_append offset cs
      have hspan := first_span offset cs
      rw [tokens_cons hkind] at h
      generalize Scan.first offset cs = found at happend hspan h ih
      subst happend
      rcases List.mem_cons.1 h with rfl | hmem
      · refine ⟨_, found.rest, rfl, ?_⟩
        simp only [hspan, Text.byteLength_append, Text.byteLength_reverse]
        omega
      · obtain ⟨front, back, hrest, hstop⟩ := ih hmem
        refine ⟨found.skipped.reverse ++ found.token.lexeme.reverse ++ front, back, ?_, ?_⟩
        · rw [hrest, List.append_assoc _ front]
        · simp only [hstop, hspan, Text.byteLength_append, Text.byteLength_reverse]
          omega

/-- The text from the first token of a text to another one. -/
theorem exists_code (hfirst : (tokens offset cs).head? = some first)
    (hlast : last ∈ tokens offset cs) : ∃ front code back,
      cs = front ++ code ++ back ∧ first.span.start = offset + Text.byteLength front ∧
        last.span.stop = offset + Text.byteLength (front ++ code) := by
  have hskip : skip cs ≠ [] := by
    intro hskip
    rw [tokens_of_skip_nil offset hskip] at hlast
    cases hlast
  obtain ⟨c, tail, hcons⟩ := List.exists_cons_of_ne_nil hskip
  have happend := first_append offset cs
  have hstart := first_start offset cs
  have hstop := first_span offset cs
  rw [tokens_cons (first_kind_ne_end offset hcons)] at hfirst hlast
  cases hfirst
  generalize Scan.first offset cs = found at happend hstart hstop hlast
  subst happend
  rw [← Text.byteLength_reverse found.skipped] at hstart hstop
  rw [← Text.byteLength_reverse found.token.lexeme, Nat.add_assoc,
    ← Text.byteLength_append] at hstop
  rcases List.mem_cons.1 hlast with rfl | hmem
  · exact ⟨_, _, _, rfl, hstart, hstop⟩
  · obtain ⟨front, back, hrest, hlast⟩ := exists_front_of_mem_tokens hmem
    refine ⟨found.skipped.reverse, found.token.lexeme.reverse ++ front, back, ?_, hstart, ?_⟩
    · rw [hrest]
      simp
    · rw [hlast, hstop, Nat.add_assoc, ← Text.byteLength_append, List.append_assoc]

end Scan

namespace Buffer

open Scan (EndsLine)

variable {b : Buffer} {text : String}

/-! ## What is left on the current line -/

/-- The offset where the line of the cursor ends. -/
def lineEnd (b : Buffer) : Nat := b.cursor + Text.byteLength (b.after.takeWhile (· != '\n'))

/-- The tokens between the cursor and the end of its line. -/
def leftOnLine (b : Buffer) : List Token :=
  (Scan.tokens b.cursor b.after).filter (·.span.stop ≤ b.lineEnd)

theorem leftOnLine_eq {line more : List Char} (hline : b.after.takeWhile (· != '\n') = line)
    (hafter : b.after = line ++ more) (hmore : EndsLine more) :
    b.leftOnLine = Scan.tokens b.cursor line := by
  have hinside : ∀ token ∈ Scan.tokens b.cursor line, token.span.stop ≤ b.lineEnd := by
    intro token hmem
    rw [lineEnd, hline]
    exact Scan.stop_le_of_mem_tokens hmem
  have hbehind : ∀ token ∈ Scan.tokens (b.cursor + Text.byteLength line) more,
      ¬token.span.stop ≤ b.lineEnd := by
    intro token hmem
    rw [lineEnd, hline, Nat.not_le]
    exact Scan.lt_stop_of_mem_tokens hmem
  calc b.leftOnLine
      = (Scan.tokens b.cursor line ++ Scan.tokens (b.cursor + Text.byteLength line) more).filter
          (·.span.stop ≤ b.lineEnd) := by
        rw [leftOnLine, hafter, Scan.tokens_line hmore]
    _ = Scan.tokens b.cursor line := by
        rw [List.filter_append, List.filter_eq_self.2 (by simpa using hinside),
          List.filter_eq_nil_iff.2 (by simpa using hbehind), List.append_nil]

theorem leftOnLine_of_line {line following : List Char} (hline : '\n' ∉ line)
    (hafter : b.after = line ∧ following = [] ∨ b.after = line ++ '\n' :: following) :
    b.leftOnLine = Scan.tokens b.cursor line := by
  have htake := takeWhile_line hline hafter
  rcases hafter with ⟨hend, _⟩ | hbreak
  · exact leftOnLine_eq htake (by rw [hend, List.append_nil] : b.after = line ++ [])
      (by simp [EndsLine])
  · exact leftOnLine_eq htake hbreak (Scan.endsLine_break _)

/-! ## What later splices leave alone -/

namespace Action

/-- An action that splices nothing into the current line. -/
def Linewise : Action → Prop
  | .insertAtCursor _ => False
  | _ => True

instance : DecidablePred Linewise
  | .next => .isTrue trivial
  | .peek => .isTrue trivial
  | .insertAtCursor _ => .isFalse id
  | .insertNextLine _ => .isTrue trivial

end Action

/-- A text that a buffer starts with, and that ends in front of the cursor or with the line of the
cursor. -/
def Kept (front : List Char) (b : Buffer) : Prop :=
  front <+: b.behind ∨ ∃ line, '\n' ∉ line ∧ front = b.behind ++ (line ++ ['\n']) ∧
    line ++ ['\n'] <+: b.after

namespace Kept

variable {front : List Char}

theorem isPrefix (h : Kept front b) : front <+: b.chars := by
  rcases h with hbehind | ⟨line, _, rfl, hafter⟩
  · exact hbehind.trans b.behind_le
  · exact (List.prefix_append_right_inj _).2 hafter

theorem next (h : Kept front b) : Kept front b.next.2 := by
  rcases h with hbehind | ⟨line, hline, rfl, hafter⟩
  · exact .inl (hbehind.trans b.behind_le_next)
  · have happend := Scan.first_append b.cursor b.after
    have hnext := b.behind_next
    rw [← b.found_eq] at happend
    rw [List.append_assoc] at hnext
    generalize b.found.skipped.reverse ++ b.found.token.lexeme.reverse = passed at happend hnext
    have hpassed : passed <+: b.after := happend ▸ List.prefix_append _ _
    -- the cursor passes the line break, or comes closer to it
    rcases List.prefix_or_prefix_of_prefix hafter hpassed with hover | ⟨left, hleft⟩
    · refine .inl ?_
      rw [hnext]
      exact (List.prefix_append_right_inj _).2 hover
    · rcases List.eq_nil_or_concat left with rfl | ⟨inner, c, rfl⟩
      · refine .inl ?_
        exact ⟨[], by simp only [hnext, ← hleft, List.append_nil]⟩
      · rw [List.concat_eq_append, ← List.append_assoc] at hleft
        obtain ⟨hinner, hc⟩ := List.append_inj' hleft rfl
        cases hc
        refine .inr ⟨inner, fun hmem => hline ?_, ?_, ?_⟩
        · rw [← hinner]
          exact List.mem_append_right _ hmem
        · rw [hnext, ← hinner]
          simp only [List.append_assoc]
        · rw [← happend, ← hinner, List.append_assoc] at hafter
          exact (List.prefix_append_right_inj _).1 hafter

/-- A splice on the next line is in front of nothing that is on the current line. -/
theorem of_insertNextLine {line : List Char} (hline : '\n' ∉ line)
    (htake : b.after.takeWhile (· != '\n') = line) (text : String) :
    Kept (b.behind ++ (line ++ ['\n'])) (b.insertNextLine text).2 := by
  refine .inr ⟨line, hline, rfl, ?_⟩
  simp only [Buffer.insertNextLine, withAfter, htake]
  exact ⟨_, List.append_assoc _ _ _⟩

theorem insertNextLine (h : Kept front b) (text : String) :
    Kept front (b.insertNextLine text).2 := by
  rcases h with hbehind | ⟨line, hline, rfl, following, hafter⟩
  · exact .inl hbehind
  · rw [List.append_assoc] at hafter
    exact of_insertNextLine hline (takeWhile_line hline (.inr hafter.symm)) text

theorem perform {action : Action} (h : Kept front b) (haction : action.Linewise) :
    Kept front (b.perform action).2 := by
  cases action with
  | next => exact h.next
  | peek =>
      change Kept front b.peek.2
      unfold Buffer.peek
      split
      · exact h
      · exact h
  | insertAtCursor text => exact haction.elim
  | insertNextLine text => exact h.insertNextLine text

end Kept

/-! ## Warnings -/

theorem codeSpan?_eq_some_iff {offset : Nat} {cs : List Char} {span : Span} :
    codeSpan? offset cs = some span ↔ ∃ first last, (Scan.tokens offset cs).head? = some first ∧
      (Scan.tokens offset cs).getLast? = some last ∧ span = ⟨first.span.start, last.span.stop⟩ := by
  unfold codeSpan?
  cases htokens : Scan.tokens offset cs with
  | nil => simp
  | cons first more =>
      rw [List.getLast?_eq_some_getLast (List.cons_ne_nil first more)]
      constructor
      · intro h
        cases h
        exact ⟨_, _, rfl, rfl, rfl⟩
      · rintro ⟨_, _, ⟨⟩, ⟨⟩, rfl⟩
        rfl

theorem codeSpan?_isSome_iff {offset : Nat} {cs : List Char} :
    (codeSpan? offset cs).isSome ↔ Scan.tokens offset cs ≠ [] := by
  unfold codeSpan?
  cases Scan.tokens offset cs with
  | nil => simp
  | cons first more => simp

/-- What the tokens of the current line span is quoted from the line, and is there in the text. -/
theorem exists_quoted {line : List Char} {span : Span}
    (hspan : codeSpan? b.cursor line = some span) : ∃ first last code,
      (Scan.tokens b.cursor line).head? = some first ∧
      (Scan.tokens b.cursor line).getLast? = some last ∧
      span = ⟨first.span.start, last.span.stop⟩ ∧
      Text.slice? line (span.start - b.cursor) (span.stop - b.cursor) = some code ∧
      Text.slice? (b.behind ++ line) span.start span.stop = some code := by
  obtain ⟨first, last, hfirst, hlast, rfl⟩ := codeSpan?_eq_some_iff.1 hspan
  obtain ⟨front, code, back, rfl, hstart, hstop⟩ :=
    Scan.exists_code hfirst (List.mem_of_getLast? hlast)
  refine ⟨first, last, code, hfirst, hlast, rfl, ?_, ?_⟩
  · simp only [hstart, hstop, Nat.add_sub_cancel_left]
    exact Text.slice?_append front code back
  · refine Text.slice?_eq_some_iff.2 ⟨b.behind ++ front, back, ?_, ?_, ?_⟩
    · simp only [List.append_assoc]
    · rw [Text.byteLength_append, behind, byteLength_before, hstart]
    · rw [List.append_assoc, Text.byteLength_append, behind, byteLength_before, hstop]

/-- A splice on the next line warns if and only if tokens are left on the current line, which the
buffer then delivers in front of everything from the splice on.  The warning spans these tokens and
quotes the text that they span.  Whatever tokens are taken and whatever is spliced in on later lines
afterwards, that text is where the warning says. -/
theorem warns_iff_leftOnLine (b : Buffer) (text : String) :
    let left := b.leftOnLine
    let injection := (b.insertNextLine text).1
    let spliced := (b.insertNextLine text).2
    (spliced.delivered left.length = left ∧
      ∀ n, ∀ token ∈ (spliced.delivered (left.length + n)).drop left.length,
        injection.offset ≤ token.span.start) ∧
    (injection.warning.isSome ↔ left ≠ []) ∧
    ∀ warning, injection.warning = some warning → ∃ first last code,
      left.head? = some first ∧ left.getLast? = some last ∧ warning.code.id = "W4001" ∧
      warning.primarySpan? = some ⟨first.span.start, last.span.stop⟩ ∧
      warning.message = s!"extra text '{String.ofList code}' after call to lex_stuff" ∧
      Text.slice? b.chars first.span.start last.span.stop = some code ∧
      ∀ later : List Action, (∀ action ∈ later, action.Linewise) →
        Text.slice? (spliced.performAll later).chars first.span.start last.span.stop
          = some code := by
  intro left injection spliced
  obtain ⟨line, following, hline, hold, hnew⟩ := insert_line_after b text
  have htake := takeWhile_line hline hold
  have hleft : left = Scan.tokens b.cursor line := leftOnLine_of_line hline hold
  have hoffset : injection.offset = b.cursor + Text.byteLength line + Text.byteLength ['\n'] := by
    simp only [injection, insertNextLine, htake]
    rfl
  have hwarning : injection.warning = (codeSpan? b.cursor line).map fun span =>
      .extraText span (String.ofList
        ((Text.slice? line (span.start - b.cursor) (span.stop - b.cursor)).getD [])) := by
    simp only [injection, insertNextLine, htake]
  rw [hleft]
  refine ⟨⟨?_, fun n token hmem => ?_⟩, ?_, fun warning h => ?_⟩
  · exact delivered_of_line (b := spliced) hnew (Scan.endsLine_break _)
  · have hbehind := delivered_behind_line (b := spliced) hnew (Scan.endsLine_break _) n
    have hbreak : ∀ ds, Scan.trivia false [] ('\n' :: ds) = Scan.trivia false ['\n'] ds :=
      fun _ => rfl
    rw [show b.cursor = spliced.cursor from rfl, hbehind,
      Scan.stream_behind _ _ (hbreak _)] at hmem
    rw [hoffset]
    exact Scan.le_start_of_mem_stream hmem
  · rw [hwarning, Option.isSome_map, codeSpan?_isSome_iff]
  · rw [hwarning] at h
    obtain ⟨span, hspan, rfl⟩ := Option.map_eq_some_iff.1 h
    obtain ⟨first, last, code, hfirst, hlast, rfl, hquoted, hslice⟩ := exists_quoted hspan
    refine ⟨first, last, code, hfirst, hlast, rfl, rfl, ?_, ?_, fun later hlater => ?_⟩
    · rw [hquoted]
      rfl
    · have hline : line <+: b.after := htake ▸ List.takeWhile_prefix _
      exact Text.slice?_of_prefix hslice ((List.prefix_append_right_inj _).2 hline)
    · have hkept : Kept (b.behind ++ (line ++ ['\n'])) (spliced.performAll later) :=
        performAll_induction (.of_insertNextLine hline htake text) fun _ action haction h =>
          h.perform (hlater action haction)
      refine Text.slice?_of_prefix hslice (List.IsPrefix.trans ?_ hkept.isPrefix)
      exact (List.prefix_append_right_inj _).2 (List.prefix_append _ _)

/-- A word and a string without its closing quote are left on the line.  They are where the warning
says behind one more token and one more splice. -/
theorem warns_iff_leftOnLine_open_string :
    let b := (ofString "f; x \"y\nz").next.2.next.2
    let spliced := (b.insertNextLine "g();").2
    spliced.delivered 2 = b.leftOnLine ∧
      ∃ warning, (b.insertNextLine "g();").1.warning = some warning ∧
        warning.primarySpan? = some ⟨3, 7⟩ ∧
        Text.slice? (spliced.performAll [.next, .insertNextLine "h();"]).chars 3 7
          = some "x \"y".toList := by
  intro b spliced
  have hleft : b.leftOnLine = [⟨.ident "x", ⟨3, 4⟩, ['x']⟩,
      ⟨.bad .unterminatedString, ⟨5, 7⟩, ['y', '"']⟩] := by
    have hline : b.after.takeWhile (· != '\n') = " x \"y".toList := by decide
    have hafter : b.after = " x \"y".toList ++ "\nz".toList := by decide
    rw [leftOnLine_eq hline hafter (Scan.endsLine_break _), Scan.tokens_cons (by decide),
      Scan.tokens_cons (by decide), Scan.tokens_of_skip_nil _ (by decide)]
    decide
  obtain ⟨⟨hdelivered, _⟩, hwarns, hvalid⟩ := warns_iff_leftOnLine b "g();"
  rw [hleft] at hdelivered hwarns hvalid
  obtain ⟨warning, hwarning⟩ := Option.isSome_iff_exists.1 (hwarns.2 (List.cons_ne_nil _ _))
  obtain ⟨_, _, code, ⟨⟩, ⟨⟩, _, hspan, _, hquoted, hlater⟩ := hvalid warning hwarning
  have hcode : some code = some "x \"y".toList := hquoted.symm.trans (by decide)
  rw [hcode] at hlater
  exact ⟨hdelivered.trans hleft.symm, warning, hwarning, hspan, hlater _ (by decide)⟩

end Buffer

end TwoPhase
