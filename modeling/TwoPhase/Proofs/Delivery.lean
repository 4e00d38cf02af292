import TwoPhase.Proofs.Words
import TwoPhase.Proofs.Splice

/-!
# The tokens that a buffer delivers

A splice of text that ends in `;` or `}` puts the tokens of that text among those that the buffer
would have delivered, and changes none of them: they only move by what went in before them.

A stream is cut in two where no token can run over the cut.  That is so where a line ends
(`stream_line`), since a token stays in its line, and behind a text that ends in one of the two
marks (`stream_closed`), since neither mark goes on to be another token.  What is spliced in stands
between two such cuts.
-/

namespace TwoPhase

/-- The token that stands a number of bytes further on. -/
def Token.shift (bytes : Nat) (token : Token) : Token :=
  { token with span := ⟨token.span.start + bytes, token.span.stop + bytes⟩ }

namespace Scan

variable {cs ds more before read rest : List Char} {c : Char} {offset : Nat}

/-! ## The first token -/

theorem first_append_lengths (offset : Nat) (cs : List Char) :
    (first offset cs).token.span.stop + Text.byteLength (first offset cs).rest
      = offset + Text.byteLength cs := by
  have hlength := congrArg Text.byteLength (first_append offset cs)
  have hstop := first_span offset cs
  simp only [Text.byteLength_append, Text.byteLength_reverse] at hlength
  omega

theorem first_shift (bytes offset : Nat) (cs : List Char) :
    first (offset + bytes) cs
      = { first offset cs with token := (first offset cs).token.shift bytes } := by
  obtain ⟨read, htrivia⟩ | ⟨read, c, more, htrivia⟩ := trivia_cases cs
  · rw [first_of_trivia_nil _ htrivia, first_of_trivia_nil _ htrivia]
    simp [Token.shift, Span.point, Nat.add_right_comm]
  · rw [first_of_trivia _ htrivia, first_of_trivia _ htrivia]
    simp [Token.shift, Nat.add_right_comm]

/-- Blanks and comments in front of a text move its first token and do nothing else to it. -/
theorem first_behind (offset : Nat) (h : trivia false [] cs = trivia false before ds) :
    (first offset cs).token = (first (offset + Text.byteLength before) ds).token ∧
      (first offset cs).rest = (first (offset + Text.byteLength before) ds).rest := by
  have happend : trivia false before ds = ⟨(trivia false [] ds).read ++ before, _⟩ :=
    trivia_append false [] before ds
  rw [happend] at h
  have hstart : ∀ read, offset + Text.byteLength (read ++ before)
      = offset + Text.byteLength before + Text.byteLength read := by
    intro read
    rw [Text.byteLength_append]
    omega
  obtain ⟨read, htrivia⟩ | ⟨read, c, more, htrivia⟩ := trivia_cases ds
  · rw [htrivia] at h
    rw [first_of_trivia_nil _ h, first_of_trivia_nil _ htrivia, hstart]
    exact ⟨rfl, rfl⟩
  · rw [htrivia] at h
    rw [first_of_trivia _ h, first_of_trivia _ htrivia, hstart]
    exact ⟨rfl, rfl⟩

/-! ## Blanks and comments in front of more text -/

/-- A comment is one whatever is put behind the text. -/
theorem comment_append (h : (c == '/' && cs.head? == some '/') = true) (more : List Char) :
    (c == '/' && (cs ++ more).head? == some '/') = true := by
  cases cs with
  | nil => simp at h
  | cons d ds => exact h

/-- A text with no token in it is skipped as a whole where its line ends. -/
theorem trivia_through {inComment : Bool} (hrest : (trivia inComment read cs).rest = [])
    (hmore : EndsLine more) :
    trivia inComment read (cs ++ more) = trivia false (trivia inComment read cs).read more := by
  fun_induction trivia inComment read cs with
  | case1 inComment read =>
      obtain rfl | ⟨next, rfl⟩ := hmore.cases
      · rfl
      · cases inComment <;> rfl
  | case2 read c cs ih => simpa [trivia] using ih hrest
  | case3 inComment read c cs hcomment hblank ih =>
      simpa [trivia, hcomment, hblank] using ih hrest
  | case4 inComment read c cs hcomment hblank hslash ih =>
      have hslash' := comment_append hslash more
      rw [List.cons_append, trivia, if_neg hcomment, if_neg hblank, if_pos hslash']
      exact ih hrest
  | case5 inComment read c cs hcomment hblank hslash => cases hrest

theorem trivia_blanks {blanks : List Char} (hblanks : ∀ c ∈ blanks, isBlank c = true)
    (read cs : List Char) :
    trivia false read (blanks ++ cs) = trivia false (blanks.reverse ++ read) cs := by
  induction blanks generalizing read with
  | nil => rfl
  | cons c blanks ih =>
      have hblank := hblanks c List.mem_cons_self
      have hstep : trivia false read (c :: (blanks ++ cs)) = trivia false (c :: read) (blanks ++ cs) := by
        simp [trivia, hblank]
      rw [List.cons_append, hstep, ih fun d hd => hblanks d (List.mem_cons_of_mem c hd)]
      simp

/-- What is skipped in front of a token is skipped whatever is put behind the text. -/
theorem trivia_before {inComment : Bool} (hrest : (trivia inComment read cs).rest ≠ [])
    (hmore : EndsLine more ∨ ∀ c ∈ cs.getLast?, c ≠ '/') :
    trivia inComment read (cs ++ more)
      = ⟨(trivia inComment read cs).read, (trivia inComment read cs).rest ++ more⟩ := by
  have htail : ∀ c cs, (EndsLine more ∨ ∀ d ∈ (c :: cs).getLast?, d ≠ '/') →
      (EndsLine more ∨ ∀ d ∈ cs.getLast?, d ≠ '/') := by
    intro c cs h
    refine h.imp_right fun hlast d hd => hlast d ?_
    cases cs with
    | nil => cases hd
    | cons e es => simpa using hd
  fun_induction trivia inComment read cs with
  | case1 => exact absurd rfl hrest
  | case2 read c cs ih => simpa [trivia] using ih hrest (htail c cs hmore)
  | case3 inComment read c cs hcomment hblank ih =>
      simpa [trivia, hcomment, hblank] using ih hrest (htail c cs hmore)
  | case4 inComment read c cs hcomment hblank hslash ih =>
      have hslash' := comment_append hslash more
      rw [List.cons_append, trivia, if_neg hcomment, if_neg hblank, if_pos hslash']
      exact ih hrest (htail c cs hmore)
  | case5 inComment read c cs hcomment hblank hslash =>
      have hslash' : ¬(c == '/' && (cs ++ more).head? == some '/') = true := by
        cases cs with
        | cons d ds => exact hslash
        | nil =>
            rcases hmore with hline | hlast
            · obtain rfl | ⟨next, rfl⟩ := hline.cases <;> simp
            · simp [hlast c rfl]
      rw [List.cons_append, trivia, if_neg hcomment, if_neg hblank, if_neg hslash']

/-- The first token of a text is the first token of more text if its characters are. -/
theorem first_before (offset : Nat) {tail : List Char}
    (htrivia : trivia false [] cs = ⟨read, c :: tail⟩)
    (hmore : EndsLine more ∨ ∀ d ∈ cs.getLast?, d ≠ '/')
    (hlexeme : lexeme c (tail ++ more)
      = ((lexeme c tail).1, ⟨(lexeme c tail).2.read, (lexeme c tail).2.rest ++ more⟩)) :
    (first offset (cs ++ more)).token = (first offset cs).token ∧
      (first offset (cs ++ more)).rest = (first offset cs).rest ++ more := by
  have hrest : (trivia false [] cs).rest ≠ [] := by simp [htrivia]
  have happend : trivia false [] (cs ++ more) = ⟨read, c :: (tail ++ more)⟩ := by
    rw [trivia_before hrest hmore, htrivia]
    rfl
  rw [first_of_trivia offset htrivia, first_of_trivia offset happend, hlexeme]
  exact ⟨rfl, rfl⟩

/-! ## Streams -/

/-- The first tokens of a text that starts at byte `offset`.  Behind the last one comes the end of
input, again and again. -/
def stream (offset : Nat) (cs : List Char) : Nat → List Token
  | 0 => []
  | n + 1 =>
    (first offset cs).token :: stream (first offset cs).token.span.stop (first offset cs).rest n

theorem stream_shift (bytes offset : Nat) (cs : List Char) (n : Nat) :
    stream (offset + bytes) cs n = (stream offset cs n).map (Token.shift bytes) := by
  induction n generalizing offset cs with
  | zero => rfl
  | succ n ih =>
      rw [stream, stream, List.map_cons, first_shift, ← ih]
      rfl

theorem first_start_le (offset : Nat) (cs : List Char) :
    offset ≤ (first offset cs).token.span.start ∧
      (first offset cs).token.span.start ≤ (first offset cs).token.span.stop := by
  obtain ⟨read, htrivia⟩ | ⟨read, c, more, htrivia⟩ := trivia_cases cs
  · rw [first_of_trivia_nil _ htrivia]
    exact ⟨Nat.le_add_right _ _, Nat.le_refl _⟩
  · rw [first_of_trivia _ htrivia]
    exact ⟨Nat.le_add_right _ _, Nat.le_add_right _ _⟩

theorem le_start_of_mem_stream {n : Nat} {token : Token} (h : token ∈ stream offset cs n) :
    offset ≤ token.span.start := by
  induction n generalizing offset cs with
  | zero => cases h
  | succ n ih =>
      obtain ⟨hstart, hstop⟩ := first_start_le offset cs
      rcases List.mem_cons.1 h with rfl | hmem
      · exact hstart
      · have hnext := ih hmem
        omega

theorem stop_le_of_mem_tokens {token : Token} (h : token ∈ tokens offset cs) :
    token.span.stop ≤ offset + Text.byteLength cs := by
  induction offset, cs using tokens_induction with
  | nil offset cs hskip =>
      rw [tokens_of_skip_nil offset hskip] at h
      cases h
  | cons offset cs _ hkind ih =>
      have hlengths := first_append_lengths offset cs
      rw [tokens_cons hkind] at h
      rcases List.mem_cons.1 h with rfl | hmem
      · omega
      · have hrest := ih hmem
        omega

/-- What is skipped in front of a stream only moves it. -/
theorem stream_behind (offset n : Nat) (h : trivia false [] cs = trivia false before ds) :
    stream offset cs n = stream (offset + Text.byteLength before) ds n := by
  obtain ⟨htoken, hrest⟩ := first_behind offset h
  cases n with
  | zero => rfl
  | succ n => rw [stream, stream, htoken, hrest]

/-- A stream is cut in two behind a text none of whose tokens goes on behind it.  `Q` is what is
known of the text from each of its tokens on. -/
theorem stream_append {Q : Nat → List Char → Prop}
    (hend : ∀ offset cs, Q offset cs → skip cs = [] →
      trivia false [] (cs ++ more) = trivia false (trivia false [] cs).read more)
    (htoken : ∀ offset cs, Q offset cs → skip cs ≠ [] →
      (first offset (cs ++ more)).token = (first offset cs).token ∧
        (first offset (cs ++ more)).rest = (first offset cs).rest ++ more ∧
        Q (first offset cs).token.span.stop (first offset cs).rest)
    (h : Q offset cs) (n : Nat) :
    stream offset (cs ++ more) ((tokens offset cs).length + n)
      = tokens offset cs ++ stream (offset + Text.byteLength cs) more n := by
  induction offset, cs using tokens_induction with
  | nil offset cs hskip =>
      have hread := whole_trivia false [] cs
      have hnone : (trivia false [] cs).rest = [] := hskip
      rw [Split.whole, hnone, List.append_nil, List.reverse_nil, List.nil_append] at hread
      have hbytes : Text.byteLength (trivia false [] cs).read = Text.byteLength cs := by
        rw [← Text.byteLength_reverse, hread]
      rw [tokens_of_skip_nil offset hskip, stream_behind _ _ (hend offset cs h hskip), hbytes]
      simp
  | cons offset cs hskip hkind ih =>
      obtain ⟨hsame, hrest, hnext⟩ := htoken offset cs h hskip
      have hstop := first_append_lengths offset cs
      rw [tokens_cons hkind, List.length_cons, Nat.add_right_comm, stream, hsame, hrest, ih hnext,
        hstop]
      rfl

/-- No token goes on where its line ends. -/
theorem stream_line (hmore : EndsLine more) (offset : Nat) (cs : List Char) (n : Nat) :
    stream offset (cs ++ more) ((tokens offset cs).length + n)
      = tokens offset cs ++ stream (offset + Text.byteLength cs) more n := by
  refine stream_append (Q := fun _ _ => True) ?_ ?_ trivial n
  · intro offset cs _ hskip
    exact trivia_through hskip hmore
  · intro offset cs _ hskip
    obtain ⟨c, tail, hcons⟩ := List.exists_cons_of_ne_nil hskip
    obtain ⟨hsame, hrest⟩ :=
      first_before offset (trivia_of_skip hcons) (.inl hmore) (lexeme_before (.inl hmore))
    exact ⟨hsame, hrest, trivial⟩

/-! ## Closed texts -/

/-- The last token of a text is `;` or `}` and ends with the text. -/
def Closes (offset : Nat) (cs : List Char) : Prop :=
  ∃ token, (tokens offset cs).getLast? = some token ∧
    (token.kind = .semicolon ∨ token.kind = .braceClose) ∧
    token.span.stop = offset + Text.byteLength cs

theorem lexeme_mark (h : (lexeme c cs).1 = .semicolon ∨ (lexeme c cs).1 = .braceClose) :
    c = ';' ∨ c = '\x7d' := by
  refine h.imp (fun h => ?_) lexeme_brace
  have hchar := lexeme_ofChar (.inr (.inl rfl)) h
  unfold TokenKind.ofChar at hchar
  split at hchar <;> simp_all

theorem mark_alone (hc : c = ';' ∨ c = '\x7d') (cs : List Char) :
    lexeme c cs = (.ofChar c, ⟨[c], cs⟩) := by
  rcases hc with rfl | rfl
  · have hpair : ∀ d, TokenKind.ofPair? ';' d = none := by
      intro d
      unfold TokenKind.ofPair?
      split <;> simp_all
    exact symbol_alone hpair cs
  · exact symbol_alone ofPair?_brace cs

theorem byteLength_eq_zero (h : Text.byteLength cs = 0) : cs = [] := by
  cases cs with
  | nil => rfl
  | cons c cs =>
      have hpos := Char.utf8Size_pos c
      rw [Text.byteLength_cons] at h
      omega

namespace Closes

theorem skip_ne_nil (h : Closes offset cs) : skip cs ≠ [] := by
  obtain ⟨token, hlast, _⟩ := h
  intro hskip
  rw [tokens_of_skip_nil offset hskip] at hlast
  cases hlast

/-- A closed text is closed behind its first token, or that token is the mark. -/
theorem step (h : Closes offset cs) {tail : List Char} (hskip : skip cs = c :: tail) :
    Closes (first offset cs).token.span.stop (first offset cs).rest ∨
      (c = ';' ∨ c = '\x7d') ∧ tail = [] := by
  obtain ⟨token, hlast, hkind, hstop⟩ := h
  have hlengths := first_append_lengths offset cs
  rw [tokens_cons (first_kind_ne_end offset hskip)] at hlast
  cases htokens : tokens (first offset cs).token.span.stop (first offset cs).rest with
  | nil =>
      rw [htokens, List.getLast?_singleton] at hlast
      cases hlast
      have hrest : (first offset cs).rest = [] := byteLength_eq_zero (by omega)
      obtain ⟨hfirst, hbehind⟩ := first_of_skip offset hskip
      rw [hfirst] at hkind
      have hmark := lexeme_mark hkind
      rw [hbehind, mark_alone hmark] at hrest
      exact .inr ⟨hmark, hrest⟩
  | cons next others =>
      refine .inl ⟨token, ?_, hkind, by omega⟩
      rw [htokens] at hlast ⊢
      simpa using hlast

theorem getLast? (h : Closes offset cs) : ∃ c, cs.getLast? = some c ∧ (c = ';' ∨ c = '\x7d') := by
  induction offset, cs using tokens_induction with
  | nil offset cs hskip => exact absurd hskip h.skip_ne_nil
  | cons offset cs hskip _ ih =>
      obtain ⟨c, tail, hcons⟩ := List.exists_cons_of_ne_nil hskip
      rcases h.step hcons with hrest | ⟨hmark, rfl⟩
      · obtain ⟨d, hlast, hd⟩ := ih hrest
        have happend := first_append offset cs
        refine ⟨d, ?_, hd⟩
        rw [← happend, List.getLast?_append, hlast]
        rfl
      · have hwhole := whole_trivia false [] cs
        have hrest : (trivia false [] cs).rest = [c] := hcons
        rw [Split.whole, hrest, List.reverse_nil, List.nil_append] at hwhole
        exact ⟨c, by rw [← hwhole, List.getLast?_append]; rfl, hmark⟩

end Closes

/-- No token goes on behind a text that ends in one of the two marks. -/
theorem stream_closed (h : Closes offset cs) (more : List Char) (n : Nat) :
    stream offset (cs ++ more) ((tokens offset cs).length + n)
      = tokens offset cs ++ stream (offset + Text.byteLength cs) more n := by
  refine stream_append (Q := fun offset cs => cs = [] ∨ Closes offset cs) ?_ ?_ (.inr h) n
  · rintro offset cs (rfl | hcloses) hskip
    · rfl
    · exact absurd hskip hcloses.skip_ne_nil
  · rintro offset cs (rfl | hcloses) hskip
    · exact absurd rfl hskip
    obtain ⟨c, tail, hcons⟩ := List.exists_cons_of_ne_nil hskip
    have htrivia := trivia_of_skip hcons
    obtain ⟨last, hlast, hmark⟩ := hcloses.getLast?
    -- neither mark is a character that needs another
    have hfree : ∀ d ∈ cs.getLast?, d ≠ ':' ∧ d ≠ '\\' ∧ d ≠ '/' := by
      intro d hd
      rw [hlast] at hd
      cases hd
      rcases hmark with rfl | rfl <;> decide
    have hslash : ∀ d ∈ cs.getLast?, d ≠ '/' := fun d hd => (hfree d hd).2.2
    rcases hcloses.step hcons with hrest | ⟨hc, rfl⟩
    · have happart : Apart tail (lexeme c tail).2.rest more := by
        refine .inr ⟨?_, fun d hd => hfree d ?_⟩
        · rw [← (first_of_skip offset hcons).2]
          rintro hnone
          rw [hnone] at hrest
          exact hrest.skip_ne_nil rfl
        · have hwhole := whole_trivia false [] cs
          rw [htrivia, Split.whole_mk, List.reverse_nil, List.nil_append] at hwhole
          rw [← hwhole, List.getLast?_append, List.getLast?_cons, hd]
          rfl
      obtain ⟨hsame, hbehind⟩ :=
        first_before offset htrivia (.inr hslash) (lexeme_before happart)
      exact ⟨hsame, hbehind, .inr hrest⟩
    · have hlexeme : lexeme c ([] ++ more)
          = ((lexeme c []).1, ⟨(lexeme c []).2.read, (lexeme c []).2.rest ++ more⟩) := by
        rw [mark_alone hc, mark_alone hc]
      obtain ⟨hsame, hbehind⟩ := first_before offset htrivia (.inr hslash) hlexeme
      refine ⟨hsame, hbehind, .inl ?_⟩
      rw [(first_of_skip offset hcons).2, mark_alone hc]

end Scan

/-! ## Buffers -/

namespace Buffer

open Scan (stream stream_shift stream_behind stream_line stream_closed Closes EndsLine
  endsLine_break)

/-- The next tokens of a buffer. -/
def delivered (b : Buffer) : Nat → List Token
  | 0 => []
  | n + 1 => b.next.1 :: b.next.2.delivered n

theorem delivered_eq (b : Buffer) (n : Nat) : b.delivered n = stream b.cursor b.after n := by
  induction n generalizing b with
  | zero => rfl
  | succ n ih =>
      rw [delivered, stream, ih]
      simp only [next, b.found_eq]

/-- A text that ends in a mark needs no space behind it. -/
theorem padded_closes {text : List Char} (h : Closes 0 text) (left right : Option Char) :
    padded left text right = (if fuses left text.head? then [' '] else []) ++ text := by
  obtain ⟨c, hlast, hmark⟩ := h.getLast?
  have hback : fuses text.getLast? right = false := by
    rw [fuses, hlast]
    rcases hmark with rfl | rfl <;> rfl
  rw [padded, hback]
  simp

/-- A splice that makes `c` of `b`: it puts a text and some blanks between two parts of the buffer,
and the tokens of the text behind the next `l` tokens, which are those left in the first part.  What
is delivered is otherwise the same, only further on in the second part. -/
structure TakesIn (b c : Buffer) (text : String) (left blanks right : List Char) (l : Nat) :
    Prop where
  old : b.chars = left ++ right
  new : c.chars = left ++ blanks ++ text.toList ++ right
  front : ∀ token ∈ b.delivered l, token.span.stop ≤ Text.byteLength left
  back : ∀ n, ∀ token ∈ (b.delivered (l + n)).drop l, Text.byteLength left ≤ token.span.start
  delivered : ∀ n, c.delivered (l + ((Scan.tokens 0 text.toList).length + n))
    = b.delivered l
      ++ (Scan.tokens 0 text.toList).map (Token.shift (Text.byteLength (left ++ blanks)))
      ++ ((b.delivered (l + n)).drop l).map (Token.shift (Text.byteLength (blanks ++ text.toList)))

variable {b : Buffer} {text : String}

theorem byteLength_before (b : Buffer) : Text.byteLength b.before.reverse = b.cursor := by
  rw [Text.byteLength_reverse, b.cursor_eq]

/-- The stream of a text that ends in a mark, with blanks in front and more text behind. -/
theorem stream_blanks_closes {blanks : List Char} (hblanks : ∀ c ∈ blanks, Scan.isBlank c = true)
    (h : Closes 0 text.toList) (offset : Nat) (more : List Char) (n : Nat) :
    stream offset (blanks ++ (text.toList ++ more)) ((Scan.tokens 0 text.toList).length + n)
      = (Scan.tokens 0 text.toList).map (Token.shift (offset + Text.byteLength blanks))
        ++ stream (offset + Text.byteLength (blanks ++ text.toList)) more n := by
  have hskip : Scan.trivia false [] (blanks ++ (text.toList ++ more))
      = Scan.trivia false blanks.reverse (text.toList ++ more) := by
    rw [Scan.trivia_blanks hblanks, List.append_nil]
  have hclosed := stream_closed h more n
  calc stream offset (blanks ++ (text.toList ++ more)) ((Scan.tokens 0 text.toList).length + n)
      = stream (0 + (offset + Text.byteLength blanks)) (text.toList ++ more)
          ((Scan.tokens 0 text.toList).length + n) := by
        rw [stream_behind _ _ hskip, Text.byteLength_reverse, Nat.zero_add]
    _ = (Scan.tokens 0 text.toList ++ stream (0 + Text.byteLength text.toList) more n).map
          (Token.shift (offset + Text.byteLength blanks)) := by
        rw [stream_shift, hclosed]
    _ = _ := by
        rw [List.map_append, ← stream_shift, Text.byteLength_append]
        congr 2
        omega

theorem takesIn_insertAtCursor (b : Buffer) (h : Closes 0 text.toList) :
    ∃ blanks, (blanks = [] ∨ blanks = [' ']) ∧
      TakesIn b (b.insertAtCursor text).2 text b.before.reverse blanks b.after 0 := by
  have hpiece := padded_closes h b.before.head? b.after.head?
  refine ⟨if fuses b.before.head? text.toList.head? then [' '] else [], by split <;> simp, ?_⟩
  have hblanks : ∀ c ∈ (if fuses b.before.head? text.toList.head? then [' '] else []),
      Scan.isBlank c = true := by
    intro c hc
    split at hc
    · rw [List.mem_singleton.1 hc]
      rfl
    · cases hc
  generalize (if fuses b.before.head? text.toList.head? then [' '] else []) = blanks
    at hpiece hblanks ⊢
  have hafter : (b.insertAtCursor text).2.after = blanks ++ (text.toList ++ b.after) := by
    simp only [insertAtCursor, withAfter, hpiece, List.append_assoc]
  constructor
  · rfl
  · rw [chars, hafter]
    simp only [insertAtCursor, withAfter, List.append_assoc]
  · intro token hmem
    cases hmem
  · intro n token hmem
    rw [Nat.zero_add, List.drop_zero, delivered_eq] at hmem
    rw [byteLength_before]
    exact Scan.le_start_of_mem_stream hmem
  · intro n
    rw [Nat.zero_add, Nat.zero_add, List.drop_zero, Text.byteLength_append, byteLength_before,
      delivered_eq, delivered_eq b n, ← stream_shift, hafter]
    exact stream_blanks_closes hblanks h b.cursor b.after n

/-- The tokens left on the current line come first. -/
theorem delivered_line {line tail : List Char} (hafter : b.after = line ++ tail)
    (htail : EndsLine tail) (n : Nat) :
    b.delivered ((Scan.tokens b.cursor line).length + n)
      = Scan.tokens b.cursor line ++ stream (b.cursor + Text.byteLength line) tail n := by
  rw [delivered_eq, hafter, stream_line htail]

theorem delivered_of_line {line tail : List Char} (hafter : b.after = line ++ tail)
    (htail : EndsLine tail) :
    b.delivered (Scan.tokens b.cursor line).length = Scan.tokens b.cursor line := by
  have hline := delivered_line hafter htail 0
  rwa [Nat.add_zero, stream, List.append_nil] at hline

theorem delivered_behind_line {line tail : List Char} (hafter : b.after = line ++ tail)
    (htail : EndsLine tail) (n : Nat) :
    (b.delivered ((Scan.tokens b.cursor line).length + n)).drop (Scan.tokens b.cursor line).length
      = stream (b.cursor + Text.byteLength line) tail n := by
  rw [delivered_line hafter htail, List.drop_left]

/-- A splice behind the line break that ends the current line, where that is in the text already or
comes with the splice: then it is one of the blanks. -/
theorem TakesIn.of_line {c : Buffer} {line tail left blanks right : List Char}
    (h : Closes 0 text.toList) (hbefore : c.before = b.before) (hcursor : c.cursor = b.cursor)
    (hold : b.after = line ++ tail) (htail : EndsLine tail)
    (hnew : c.after = line ++ '\n' :: (text.toList ++ right))
    (hline : b.cursor + Text.byteLength line ≤ Text.byteLength left)
    (hchars : b.before.reverse ++ b.after = left ++ right)
    (hbreak : b.before.reverse ++ line ++ ['\n'] = left ++ blanks)
    (hbehind : ∀ n, stream (b.cursor + Text.byteLength line) tail n
      = stream (Text.byteLength left) right n) :
    TakesIn b c text left blanks right (Scan.tokens b.cursor line).length := by
  have hbytes : Text.byteLength (b.before.reverse ++ line) = b.cursor + Text.byteLength line := by
    rw [Text.byteLength_append, byteLength_before]
  have hstart : b.cursor + Text.byteLength line + Text.byteLength ['\n']
      = Text.byteLength (left ++ blanks) := by
    rw [← hbytes, ← Text.byteLength_append, hbreak]
  refine ⟨hchars, ?_, ?_, ?_, ?_⟩
  · rw [chars, hbefore, hnew, ← hbreak]
    simp
  · intro token hmem
    rw [delivered_of_line hold htail] at hmem
    exact (Scan.stop_le_of_mem_tokens hmem).trans hline
  · intro n token hmem
    rw [delivered_behind_line hold htail, hbehind] at hmem
    exact Scan.le_start_of_mem_stream hmem
  · intro n
    have hblank : ∀ c ∈ ['\n'], Scan.isBlank c = true := by
      rintro _ (_ | ⟨_, ⟨⟩⟩)
      rfl
    have hmore : b.cursor + Text.byteLength line + Text.byteLength (['\n'] ++ text.toList)
        = Text.byteLength left + Text.byteLength (blanks ++ text.toList) := by
      rw [Text.byteLength_append, ← Nat.add_assoc, hstart, Text.byteLength_append,
        Text.byteLength_append, Nat.add_assoc]
    calc c.delivered ((Scan.tokens b.cursor line).length
          + ((Scan.tokens 0 text.toList).length + n))
        = Scan.tokens b.cursor line ++ stream (b.cursor + Text.byteLength line)
            (['\n'] ++ (text.toList ++ right)) ((Scan.tokens 0 text.toList).length + n) := by
          rw [← hcursor, delivered_line hnew (endsLine_break _)]
          rfl
      _ = Scan.tokens b.cursor line
            ++ ((Scan.tokens 0 text.toList).map (Token.shift (Text.byteLength (left ++ blanks)))
              ++ stream (Text.byteLength left + Text.byteLength (blanks ++ text.toList)) right
                n) := by
          rw [stream_blanks_closes hblank h, hstart, hmore]
      _ = _ := by
          rw [delivered_of_line hold htail, delivered_behind_line hold htail, hbehind,
            ← stream_shift, List.append_assoc]

theorem takesIn_insertNextLine (b : Buffer) (h : Closes 0 text.toList) :
    ∃ line l, '\n' ∉ line ∧
      (b.after = line ∧
          TakesIn b (b.insertNextLine text).2 text (b.before.reverse ++ line) ['\n'] [] l ∨
        ∃ right, b.after = line ++ '\n' :: right ∧
          TakesIn b (b.insertNextLine text).2 text (b.before.reverse ++ line ++ ['\n']) [] right
            l) := by
  obtain ⟨line, following, hline, hold, hnew⟩ := insert_line_after b text
  obtain ⟨hbefore, hcursor, _⟩ := insert_before b .line text
  have hfuses : fuses (some '\n') text.toList.head? = false := rfl
  rw [padded_closes h, hfuses, if_neg Bool.false_ne_true, List.nil_append] at hnew
  have hbytes : b.cursor + Text.byteLength line = Text.byteLength (b.before.reverse ++ line) := by
    rw [Text.byteLength_append, byteLength_before]
  refine ⟨line, (Scan.tokens b.cursor line).length, hline, ?_⟩
  rcases hold with ⟨hold, rfl⟩ | hold
  · have hend : b.after = line ++ [] := by rw [hold, List.append_nil]
    refine .inl ⟨hold, .of_line h hbefore hcursor hend (by simp [EndsLine]) hnew hbytes.le ?_ rfl
      fun n => by rw [hbytes]⟩
    rw [hold, List.append_nil]
  · have hleft : Text.byteLength (b.before.reverse ++ line ++ ['\n'])
        = b.cursor + Text.byteLength line + Text.byteLength ['\n'] := by
      rw [Text.byteLength_append, hbytes]
    refine .inr ⟨following, hold, .of_line h hbefore hcursor hold (endsLine_break _) hnew ?_ ?_
      (List.append_nil _).symm fun n => ?_⟩
    · rw [hleft]
      exact Nat.le_add_right _ _
    · rw [hold]
      simp
    · rw [hleft]
      exact stream_behind _ n rfl

/-- Splicing a text that ends in a mark in puts its tokens among the others, which only move: in
front of the next token, or behind the tokens that are left on the current line. -/
theorem splice_takesIn (b : Buffer) (text : String) (h : Closes 0 text.toList) :
    (∃ blanks, (blanks = [] ∨ blanks = [' ']) ∧
      TakesIn b (b.insertAtCursor text).2 text b.before.reverse blanks b.after 0) ∧
    ∃ line l, '\n' ∉ line ∧
      (b.after = line ∧
          TakesIn b (b.insertNextLine text).2 text (b.before.reverse ++ line) ['\n'] [] l ∨
        ∃ right, b.after = line ++ '\n' :: right ∧
          TakesIn b (b.insertNextLine text).2 text (b.before.reverse ++ line ++ ['\n']) [] right
            l) :=
  ⟨takesIn_insertAtCursor b h, takesIn_insertNextLine b h⟩

/-- A call is put in behind `begin`, where half a path and a comment are left on the line. -/
theorem splice_takesIn_call :
    let b := (ofString "begin x:: // y\nz").next.2
    Closes 0 "f();".toList ∧
      (∃ blanks, TakesIn b (b.insertAtCursor "f();").2 "f();" b.before.reverse blanks b.after 0) ∧
      ∃ left blanks right l, TakesIn b (b.insertNextLine "f();").2 "f();" left blanks right l := by
  have hcloses : Closes 0 "f();".toList := by
    refine ⟨⟨.semicolon, ⟨3, 4⟩, [';']⟩, ?_, .inl rfl, rfl⟩
    rw [Scan.tokens_cons (by decide), Scan.tokens_cons (by decide), Scan.tokens_cons (by decide),
      Scan.tokens_cons (by decide), Scan.tokens_of_skip_nil _ (by decide)]
    decide
  obtain ⟨⟨blanks, _, hcursor⟩, line, l, _, hline⟩ :=
    splice_takesIn (ofString "begin x:: // y\nz").next.2 "f();" hcloses
  refine ⟨hcloses, ⟨blanks, hcursor⟩, ?_⟩
  rcases hline with ⟨_, hline⟩ | ⟨right, _, hline⟩
  · exact ⟨_, _, _, l, hline⟩
  · exact ⟨_, _, _, l, hline⟩

end Buffer

end TwoPhase
