import TwoPhase.Proofs.Delivery
import TwoPhase.Proofs.Sound.Spans
import TwoPhase.Proofs.Text.Cuts
import TwoPhase.Proofs.Lexing.Patterns

/-!
# Lexing cuts a text into tokens and gaps

Asking for one token after the other comes to the end of every text, and nothing of the text is
lost: it is the texts of the tokens with gaps around them (`Partition`).  A gap is made of blanks
and comments (`Skips`), and each token is the longest match of the patterns where it starts.
-/

namespace TwoPhase

namespace Scan

/-- `Skips gap rest`: in front of `rest`, a text is made of blanks and of comments that run to the
end of their line. -/
inductive Skips : List Char → List Char → Prop where
  | nil {rest : List Char} : Skips [] rest
  | blank {c : Char} {gap rest : List Char} (hblank : isBlank c = true) (h : Skips gap rest) :
      Skips (c :: gap) rest
  | comment {line gap rest : List Char} (hline : '\n' ∉ line) (hend : EndsLine (gap ++ rest))
      (h : Skips gap rest) : Skips ('/' :: '/' :: (line ++ gap)) rest

/-- `Partition offset cs tokens`: the text is made of the texts of the tokens, with gaps between
them.  Each token is the longest match of the patterns where it stands, and its span is where it
stands if the text starts at byte `offset`. -/
inductive Partition : Nat → List Char → List Token → Prop where
  | last {offset : Nat} {gap : List Char} (hgap : Skips gap []) : Partition offset gap []
  | token {offset : Nat} {gap rest : List Char} {token : Token} {ts : List Token}
      (hgap : Skips gap (token.lexeme.reverse ++ rest))
      (hmunch : Munch token.kind token.lexeme.reverse rest)
      (hstart : token.span.start = offset + Text.byteLength gap)
      (hstop : token.span.stop = token.span.start + Text.byteLength token.lexeme)
      (h : Partition token.span.stop rest ts) :
      Partition offset (gap ++ (token.lexeme.reverse ++ rest)) (token :: ts)

variable {offset : Nat} {c : Char} {cs text rest body : List Char} {kind : TokenKind}
  {ts : List Token} {token : Token}

/-! ## Gaps -/

/-- What is skipped is a gap, and inside a comment the rest of its line and then a gap. -/
theorem skips_trivia (inComment : Bool) (read cs : List Char) :
    ∃ line gap, (trivia inComment read cs).read = (line ++ gap).reverse ++ read ∧
      cs = line ++ gap ++ (trivia inComment read cs).rest ∧
      Skips gap (trivia inComment read cs).rest ∧ '\n' ∉ line ∧
      if inComment then EndsLine (gap ++ (trivia inComment read cs).rest) else line = [] := by
  fun_induction trivia inComment read cs with
  | case1 inComment read =>
      refine ⟨[], [], rfl, rfl, .nil, List.not_mem_nil, ?_⟩
      split
      · simp [EndsLine]
      · rfl
  | case2 read c cs ih =>
      obtain ⟨line, gap, hread, hcs, hgap, hline, hend⟩ := ih
      by_cases hbreak : c = '\n'
      · subst hbreak
        have hnone : line = [] := by simpa using hend
        subst hnone
        refine ⟨[], '\n' :: gap, ?_, by simpa using hcs, .blank rfl hgap, List.not_mem_nil,
          endsLine_break _⟩
        rw [hread]
        simp
      · refine ⟨c :: line, gap, by simp [hread], by simpa using hcs, hgap, ?_, ?_⟩
        · simpa [hline] using Ne.symm hbreak
        · simpa [hbreak] using hend
  | case3 inComment read c cs hcomment hblank ih =>
      obtain ⟨line, gap, hread, hcs, hgap, hline, hend⟩ := ih
      have hnone : line = [] := hend
      subst hnone
      exact ⟨[], c :: gap, by simp [hread], by simpa using hcs, .blank hblank hgap,
        List.not_mem_nil, by simp [hcomment]⟩
  | case4 inComment read c cs hcomment hblank hslash ih =>
      obtain ⟨line, gap, hread, hcs, hgap, hline, hend⟩ := ih
      simp only [Bool.and_eq_true, beq_iff_eq] at hslash
      obtain ⟨rfl, hsecond⟩ := hslash
      -- the second slash does not end the line, so it is in the comment
      obtain ⟨line, rfl⟩ : ∃ more, line = '/' :: more := by
        cases line with
        | nil =>
            rw [List.nil_append] at hcs
            rw [← hcs] at hend
            exact absurd (hend '/' hsecond) (by decide)
        | cons d more =>
            rw [hcs] at hsecond
            cases hsecond
            exact ⟨more, rfl⟩
      have hmore : '\n' ∉ line := fun hmem => hline (List.mem_cons_of_mem _ hmem)
      exact ⟨[], '/' :: '/' :: (line ++ gap), by simp [hread], by simpa using hcs,
        .comment hmore hend hgap, List.not_mem_nil, by simp [hcomment]⟩
  | case5 inComment read c cs hcomment hblank hslash =>
      exact ⟨[], [], rfl, rfl, .nil, List.not_mem_nil, by simp [hcomment]⟩

/-- What is skipped in front of a token is a gap. -/
theorem skips_first (offset : Nat) (cs : List Char) :
    Skips (first offset cs).skipped.reverse (skip cs) := by
  obtain ⟨line, gap, hread, _, hgap, _, hnone⟩ := skips_trivia false [] cs
  have hnone : line = [] := hnone
  have hskipped : (first offset cs).skipped.reverse = gap := by
    have hsame : (first offset cs).skipped = (trivia false [] cs).read := by
      unfold first
      dsimp only
      split <;> rfl
    rw [hsame, hread, hnone]
    simp
  rw [hskipped]
  exact hgap

/-- What is behind a gap neither is blank nor starts a comment. -/
theorem trivia_rest_head {inComment : Bool} {read more : List Char}
    (h : (trivia inComment read cs).rest = c :: more) :
    ¬isBlank c = true ∧ ¬(c == '/' && more.head? == some '/') = true := by
  fun_induction trivia inComment read cs with
  | case1 => cases h
  | case2 read d cs ih => exact ih h
  | case3 inComment read d cs hcomment hblank ih => exact ih h
  | case4 inComment read d cs hcomment hblank hslash ih => exact ih h
  | case5 inComment read d cs hcomment hblank hslash =>
      cases h
      exact ⟨hblank, hslash⟩

/-! ## Tokens -/

theorem newline_notMem_pathTail (htext : text ∈ pathTail) : '\n' ∉ text := by
  refine pathTail_induction (P := fun text => '\n' ∉ text) ?nil ?char ?word htext
  case nil => exact List.not_mem_nil
  case char =>
    intro c more hc hmore hmem
    rcases List.mem_cons.1 hmem with rfl | hmem
    · exact absurd hc (by decide)
    · exact hmore hmem
  case word =>
    intro c more hc hmore hmem
    simp only [List.mem_cons] at hmem
    rcases hmem with heq | heq | rfl | hmem
    · exact absurd heq (by decide)
    · exact absurd heq (by decide)
    · exact absurd hc (by decide)
    · exact hmore hmem

theorem newline_notMem_stringBody (hbody : body ∈ stringBody) : '\n' ∉ body := by
  refine stringBody_induction (P := fun body => '\n' ∉ body) ?nil ?plain ?escape hbody
  case nil => exact List.not_mem_nil
  case plain =>
    intro c more hc hmore hmem
    rcases List.mem_cons.1 hmem with rfl | hmem
    · exact absurd hc (by decide)
    · exact hmore hmem
  case escape =>
    intro c more hc hmore hmem
    simp only [List.mem_cons] at hmem
    rcases hmem with heq | rfl | hmem
    · exact absurd heq (by decide)
    · exact hc rfl
    · exact hmore hmem

/-- No token has a line break in it. -/
theorem Matches.newline_notMem (h : Matches text (some kind)) : '\n' ∉ text := by
  cases h with
  | spelled h =>
      have hall : ∀ entry ∈ spellings, '\n' ∉ entry.1 := by decide
      exact hall _ h
  | number h =>
      obtain ⟨c, more, hc, hmore, rfl⟩ := mem_one_mul.1 h
      intro hmem
      rcases List.mem_cons.1 hmem with rfl | hmem
      · exact absurd hc (by decide)
      · exact absurd (mem_one_kstar.1 hmore _ hmem) (by decide)
  | string h => simpa using newline_notMem_stringBody h
  | unterminated h => simpa using newline_notMem_stringBody h
  | word h =>
      obtain ⟨c, more, hc, hmore, rfl⟩ := mem_one_mul.1 h
      intro hmem
      rcases List.mem_cons.1 hmem with rfl | hmem
      · exact absurd hc (by decide)
      · exact newline_notMem_pathTail hmore hmem

namespace Munch

theorem ne_nil (h : Munch kind text rest) : text ≠ [] := by
  cases h with
  | longest hmatch =>
      obtain ⟨c, more, rfl⟩ := hmatch.exists_cons
      exact List.cons_ne_nil c more
  | invalid => exact List.cons_ne_nil _ _

theorem newline_notMem (h : Munch kind text rest) : '\n' ∉ text := by
  cases h with
  | longest hmatch => exact hmatch.newline_notMem
  | @invalid c _ hnone =>
      -- a line break alone is blank
      intro hmem
      rw [← List.mem_singleton.1 hmem] at hnone
      refine hnone ['\n'] none (List.prefix_append ['\n'] _) (.blanks ?_)
      exact cons_mem_one_mul.2 ⟨rfl, Language.nil_mem_kstar _⟩

end Munch

/-- The first token of a text has a gap in front of it and is the longest match there. -/
theorem first_munch (h : (first offset cs).token.kind ≠ .endOfInput) :
    Skips (first offset cs).skipped.reverse
        ((first offset cs).token.lexeme.reverse ++ (first offset cs).rest) ∧
      Munch (first offset cs).token.kind (first offset cs).token.lexeme.reverse
        (first offset cs).rest := by
  obtain ⟨c, more, hcons⟩ : ∃ c more, skip cs = c :: more := by
    cases hskip : skip cs with
    | nil => exact absurd (first_of_skip_nil offset hskip).1 h
    | cons c more => exact ⟨c, more, rfl⟩
  obtain ⟨hblank, hcomment⟩ := trivia_rest_head hcons
  have hgap := skips_first offset cs
  have hwhole := whole_lexeme c more
  obtain ⟨hkind, hrest⟩ := first_of_skip offset hcons
  have htext := first_lexeme_of_skip offset hcons
  rw [hkind, htext, hrest]
  rw [hcons, ← hwhole, Split.whole] at hgap
  exact ⟨hgap, munch_lexeme hblank hcomment⟩

/-! ## Whole texts -/

/-- Every text is cut into its tokens. -/
theorem partition_tokens (offset : Nat) (cs : List Char) :
    Partition offset cs (tokens offset cs) := by
  induction offset, cs using tokens_induction with
  | nil offset cs hskip =>
      have hgap := skips_first offset cs
      have hnone := first_of_skip_nil offset hskip
      have happend := first_append offset cs
      rw [hnone.2.1, hnone.2.2, List.reverse_nil, List.append_nil, List.append_nil] at happend
      rw [hskip, happend] at hgap
      rw [tokens_of_skip_nil offset hskip]
      exact .last hgap
  | cons offset cs _ hkind ih =>
      obtain ⟨hgap, hmunch⟩ := first_munch hkind
      have happend := first_append offset cs
      have hstart := first_start offset cs
      have hstop := first_span offset cs
      rw [← hstart] at hstop
      rw [← Text.byteLength_reverse] at hstart
      have hpartition := Partition.token hgap hmunch hstart hstop ih
      rwa [← List.append_assoc, happend, ← tokens_cons hkind] at hpartition

namespace Partition

/-- Every token stands in the text, behind where the text starts. -/
theorem stands (h : Partition offset cs ts) (hmem : token ∈ ts) : ∃ front rest,
    cs = front ++ (token.lexeme.reverse ++ rest) ∧ Munch token.kind token.lexeme.reverse rest ∧
      token.span.start = offset + Text.byteLength front ∧
      token.span.stop = token.span.start + Text.byteLength token.lexeme := by
  induction h with
  | last => cases hmem
  | @token offset gap rest first ts _ hmunch hstart hstop _ ih =>
      rcases List.mem_cons.1 hmem with rfl | hmem
      · exact ⟨gap, rest, rfl, hmunch, hstart, hstop⟩
      · obtain ⟨front, back, rfl, hmunch', hstart', hstop'⟩ := ih hmem
        refine ⟨gap ++ (first.lexeme.reverse ++ front), back, by simp, hmunch', ?_, hstop'⟩
        rw [hstart', hstop, hstart]
        simp only [Text.byteLength_append, Text.byteLength_reverse]
        omega

/-- Tokens stand one behind the other. -/
theorem ordered (h : Partition offset cs ts) :
    ts.Pairwise fun earlier later => earlier.span.stop ≤ later.span.start := by
  induction h with
  | last => exact .nil
  | token _ _ _ _ h ih =>
      refine List.pairwise_cons.2 ⟨fun later hmem => ?_, ih⟩
      obtain ⟨front, rest, _, _, hstart, _⟩ := h.stands hmem
      omega

end Partition

/-- Behind the tokens of a text there is its end. -/
theorem stream_tokens (offset : Nat) (cs : List Char) :
    stream offset cs ((tokens offset cs).length + 1)
      = tokens offset cs ++ [⟨.endOfInput, .point (offset + Text.byteLength cs), []⟩] := by
  have hend : EndsLine [] := by simp [EndsLine]
  have hline := stream_line hend offset cs 1
  rwa [List.append_nil] at hline

namespace Munch

/-- A token that is neither an integer, a string, an identifier nor an error is spelled out. -/
theorem spelled (h : Munch kind text rest) (hint : ∀ value, kind ≠ .int value)
    (hstr : ∀ value, kind ≠ .str value) (hident : ∀ name, kind ≠ .ident name)
    (hbad : ∀ error, kind ≠ .bad error) : (text, kind) ∈ spellings := by
  cases h with
  | invalid => exact absurd rfl (hbad _)
  | longest hmatch =>
      generalize hmade : some kind = made at hmatch
      cases hmatch with
      | blanks | comment => cases hmade
      | spelled h =>
          cases hmade
          exact h
      | number =>
          have hkind := Option.some.inj hmade
          unfold numberKind at hkind
          split at hkind
          · exact absurd hkind (hint _)
          · exact absurd hkind (hbad _)
      | string => exact absurd (Option.some.inj hmade) (hstr _)
      | unterminated => exact absurd (Option.some.inj hmade) (hbad _)
      | word => exact absurd (Option.some.inj hmade) (hident _)

theorem ne_end (h : Munch .endOfInput text rest) : False := by
  have hall : ∀ entry ∈ spellings, entry.2 ≠ .endOfInput := by decide
  exact hall _ (h.spelled (by simp) (by simp) (by simp) (by simp)) rfl

theorem parenOpen (h : Munch .parenOpen text rest) : text = ['('] := by
  have hall : ∀ entry ∈ spellings, entry.2 = .parenOpen → entry.1 = ['('] := by decide
  exact hall _ (h.spelled (by simp) (by simp) (by simp) (by simp)) rfl

theorem parenClose (h : Munch .parenClose text rest) : text = [')'] := by
  have hall : ∀ entry ∈ spellings, entry.2 = .parenClose → entry.1 = [')'] := by decide
  exact hall _ (h.spelled (by simp) (by simp) (by simp) (by simp)) rfl

end Munch

end Scan

namespace Buffer

/-- Asking for the next token again and again gives finitely many tokens and then the end of the
text, an empty token there.  The tokens are all of the text but for blanks and comments, each is the
longest match of the patterns where it stands or a single character where none matches, and a digit
run is a token whether its value fits or not.  Their spans are not empty, cut the text between
characters and stand one behind the other, and no token has a line break in it. -/
theorem delivered_partition (source : String) : ∃ ts : List Token,
    (ofString source).delivered (ts.length + 1)
        = ts ++ [⟨.endOfInput, .point (Text.byteLength source.toList), []⟩] ∧
      Scan.Partition 0 source.toList ts ∧
      (∀ token ∈ ts, token.kind ≠ .endOfInput ∧ token.span.start < token.span.stop ∧
        token.span.Fits source.toList ∧
        Text.slice? source.toList token.span.start token.span.stop = some token.lexeme.reverse ∧
        '\n' ∉ token.lexeme) ∧
      ts.Pairwise fun earlier later => earlier.span.stop ≤ later.span.start := by
  have hpartition := Scan.partition_tokens 0 source.toList
  refine ⟨Scan.tokens 0 source.toList, ?_, hpartition, ?_, hpartition.ordered⟩
  · rw [delivered_eq]
    have hstream := Scan.stream_tokens 0 source.toList
    rwa [Nat.zero_add] at hstream
  · intro token hmem
    obtain ⟨front, rest, hsource, hmunch, hstart, hstop⟩ := hpartition.stands hmem
    rw [Nat.zero_add] at hstart
    have hpositive : 0 < Text.byteLength token.lexeme := by
      refine Nat.pos_of_ne_zero fun hzero => hmunch.ne_nil ?_
      rw [Scan.byteLength_eq_zero hzero, List.reverse_nil]
    have hslice : Text.slice? source.toList token.span.start token.span.stop
        = some token.lexeme.reverse := by
      refine Text.slice?_eq_some_iff.2 ⟨front, rest, ?_, hstart.symm, ?_⟩
      · rw [hsource, List.append_assoc]
      · rw [Text.byteLength_append, Text.byteLength_reverse, hstop, hstart]
    refine ⟨?_, by omega, ?_, hslice, ?_⟩
    · intro hkind
      exact (hkind ▸ hmunch).ne_end
    · have hfits : token.span.Fits (front ++ token.lexeme.reverse) :=
        .last hstart (by rw [hstop, Text.byteLength_reverse])
      rw [hsource, ← List.append_assoc]
      exact hfits.mono (List.prefix_append _ _)
    · simpa using hmunch.newline_notMem

end Buffer

end TwoPhase
