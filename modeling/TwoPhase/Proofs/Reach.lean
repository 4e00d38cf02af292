import Mathlib.Data.List.TakeWhile
import TwoPhase.Proofs.Scan

/-!
# Where scanning comes to

Scanning takes a text apart into blanks, comments and tokens.  `Reaches cs ds` says that a cut falls
where `ds` begins, so that scanning `cs` comes to scan `ds`.

One fact carries what is proved about spliced text: a line break is a cut whatever stands around it
(`Reaches.line`), since no token holds one and a comment ends with it.
-/

namespace TwoPhase.Scan

/-! ## Cutting off one piece -/

/-- The text behind the blank, comment or token that a text starts with. -/
def afterPiece (c : Char) (cs : List Char) : List Char :=
  if isBlank c then cs
  else if c == '/' && cs.head? == some '/' then (cs.dropWhile (· != '\n')).drop 1
  else (lexeme c cs).2.rest

theorem afterPiece_blank {c : Char} (h : isBlank c = true) (cs : List Char) :
    afterPiece c cs = cs := if_pos h

theorem afterPiece_comment {c : Char} {cs : List Char} (hblank : ¬isBlank c = true)
    (h : (c == '/' && cs.head? == some '/') = true) :
    afterPiece c cs = (cs.dropWhile (· != '\n')).drop 1 := by
  rw [afterPiece, if_neg hblank, if_pos h]

theorem afterPiece_token {c : Char} {cs : List Char} (hblank : ¬isBlank c = true)
    (h : ¬(c == '/' && cs.head? == some '/') = true) :
    afterPiece c cs = (lexeme c cs).2.rest := by
  rw [afterPiece, if_neg hblank, if_neg h]

theorem lexeme_rest_suffix (c : Char) (cs : List Char) : (lexeme c cs).2.rest <:+ cs := by
  have hwhole : (lexeme c cs).2.read.reverse ++ (lexeme c cs).2.rest = c :: cs := whole_lexeme c cs
  have hsuffix : (lexeme c cs).2.rest <:+ c :: cs := ⟨_, hwhole⟩
  rcases List.suffix_cons_iff.1 hsuffix with hall | hrest
  · -- a token has a first character, so it is not the whole text that is left
    rw [hall] at hwhole
    have hread := List.append_left_eq_self.1 hwhole
    exact absurd (List.reverse_eq_nil_iff.1 hread) (lexeme_read_ne_nil c cs)
  · exact hrest

theorem afterPiece_suffix (c : Char) (cs : List Char) : afterPiece c cs <:+ cs := by
  by_cases hblank : isBlank c = true
  · exact ⟨[], afterPiece_blank hblank cs⟩
  by_cases hcomment : (c == '/' && cs.head? == some '/') = true
  · rw [afterPiece_comment hblank hcomment]
    exact (List.drop_suffix 1 _).trans (List.dropWhile_suffix _)
  · rw [afterPiece_token hblank hcomment]
    exact lexeme_rest_suffix c cs

/-- Induction on the pieces of a text. -/
theorem pieces_induction {P : List Char → Prop} (nil : P [])
    (piece : ∀ c cs, P (afterPiece c cs) → P (c :: cs)) (cs : List Char) : P cs := by
  induction hlength : cs.length using Nat.strongRecOn generalizing cs with
  | ind n ih =>
      cases cs with
      | nil => exact nil
      | cons c cs =>
          have hshort := (afterPiece_suffix c cs).length_le
          rw [List.length_cons] at hlength
          exact piece c cs (ih _ (by omega) _ rfl)

/-! ## Reaching a place -/

/-- Scanning the first text comes to scan the second. -/
inductive Reaches : List Char → List Char → Prop where
  | refl (cs : List Char) : Reaches cs cs
  | piece {c : Char} {cs ds : List Char} (h : Reaches (afterPiece c cs) ds) : Reaches (c :: cs) ds

namespace Reaches

variable {cs ds es : List Char}

theorem trans (h : Reaches cs ds) (h' : Reaches ds es) : Reaches cs es := by
  induction h with
  | refl => exact h'
  | piece _ ih => exact .piece (ih h')

theorem blank {c : Char} (hblank : isBlank c = true) (h : Reaches cs ds) : Reaches (c :: cs) ds :=
  .piece (by rwa [afterPiece_blank hblank])

theorem nil_eq (h : Reaches [] ds) : ds = [] := by
  cases h
  rfl

end Reaches

/-! ## The next token -/

/-- What is left of a text behind the blanks and comments it starts with. -/
def skip (cs : List Char) : List Char := (trivia false [] cs).rest

theorem trivia_of_skip {cs more : List Char} (h : skip cs = more) :
    trivia false [] cs = ⟨(trivia false [] cs).read, more⟩ :=
  congrArg (Split.mk _) h

/-- What was read before does not matter. -/
theorem trivia_append (inComment : Bool) (read before cs : List Char) :
    trivia inComment (read ++ before) cs
      = ⟨(trivia inComment read cs).read ++ before, (trivia inComment read cs).rest⟩ := by
  fun_induction trivia inComment read cs with
  | case1 => rfl
  | case2 read c cs ih => simpa [trivia] using ih
  | case3 inComment read c cs hcomment hblank ih => simpa [trivia, hcomment, hblank] using ih
  | case4 inComment read c cs hcomment hblank hslash ih =>
      simpa [trivia, hcomment, hblank, hslash] using ih
  | case5 inComment read c cs hcomment hblank hslash =>
      simp [trivia, hcomment, hblank, hslash]

theorem trivia_rest (inComment : Bool) (read read' cs : List Char) :
    (trivia inComment read cs).rest = (trivia inComment read' cs).rest := by
  have h (read : List Char) := congrArg Split.rest (trivia_append inComment [] read cs)
  exact (h read).trans (h read').symm

/-- A comment is skipped up to and including the line break that ends it. -/
theorem trivia_comment (read cs : List Char) :
    (trivia true read cs).rest = skip ((cs.dropWhile (· != '\n')).drop 1) := by
  induction cs generalizing read with
  | nil => rfl
  | cons c cs ih =>
      by_cases hline : c = '\n'
      · subst hline
        exact trivia_rest false _ _ cs
      · have hne : (c != '\n') = true := by simpa using hline
        have hdrop : (c :: cs).dropWhile (· != '\n') = cs.dropWhile (· != '\n') := by
          simp [hne]
        rw [hdrop, ← ih (c :: read)]
        simp [trivia, hne]

theorem skip_blank {c : Char} (h : isBlank c = true) (cs : List Char) :
    skip (c :: cs) = skip cs := by
  have hstep : skip (c :: cs) = (trivia false [c] cs).rest := by simp [skip, trivia, h]
  rw [hstep]
  exact trivia_rest false _ _ cs

theorem skip_comment {c : Char} {cs : List Char} (hblank : ¬isBlank c = true)
    (h : (c == '/' && cs.head? == some '/') = true) :
    skip (c :: cs) = skip ((cs.dropWhile (· != '\n')).drop 1) := by
  have hstep : skip (c :: cs) = (trivia true [c] cs).rest := by simp [skip, trivia, hblank, h]
  rw [hstep]
  exact trivia_comment [c] cs

theorem skip_token {c : Char} {cs : List Char} (hblank : ¬isBlank c = true)
    (h : ¬(c == '/' && cs.head? == some '/') = true) : skip (c :: cs) = c :: cs := by
  simp [skip, trivia, hblank, h]

/-- Scanning comes to a token in its first place, or behind the first token. -/
theorem Reaches.skip {cs ds : List Char} (h : Reaches cs ds) (hds : skip ds = ds) :
    skip cs = ds ∨ ∃ c more, skip cs = c :: more ∧ Reaches (lexeme c more).2.rest ds := by
  induction h with
  | refl cs => exact .inl hds
  | @piece c cs ds h ih =>
      by_cases hblank : isBlank c = true
      · rw [afterPiece_blank hblank] at ih
        rw [skip_blank hblank]
        exact ih hds
      by_cases hcomment : (c == '/' && cs.head? == some '/') = true
      · rw [afterPiece_comment hblank hcomment] at ih
        rw [skip_comment hblank hcomment]
        exact ih hds
      · rw [afterPiece_token hblank hcomment] at h
        exact .inr ⟨c, cs, skip_token hblank hcomment, h⟩

/-- Scanning comes to the text behind the first token. -/
theorem reaches_behind {cs more : List Char} {c : Char} (h : skip cs = c :: more) :
    Reaches cs (lexeme c more).2.rest := by
  induction cs using pieces_induction with
  | nil => cases h
  | piece d cs ih =>
      refine .piece ?_
      by_cases hblank : isBlank d = true
      · rw [skip_blank hblank] at h
        rw [afterPiece_blank hblank] at ih ⊢
        exact ih h
      by_cases hcomment : (d == '/' && cs.head? == some '/') = true
      · rw [skip_comment hblank hcomment] at h
        rw [afterPiece_comment hblank hcomment] at ih ⊢
        exact ih h
      · rw [skip_token hblank hcomment] at h
        cases h
        rw [afterPiece_token hblank hcomment]
        exact .refl _

theorem first_of_skip {cs more : List Char} {c : Char} (offset : Nat) (h : skip cs = c :: more) :
    (first offset cs).token.kind = (lexeme c more).1 ∧
      (first offset cs).rest = (lexeme c more).2.rest := by
  rw [first_of_trivia offset (trivia_of_skip h)]
  exact ⟨rfl, rfl⟩

theorem first_kind_ne_end {cs more : List Char} {c : Char} (offset : Nat)
    (h : skip cs = c :: more) :
    (first offset cs).token.kind ≠ .endOfInput := by
  rw [(first_of_skip offset h).1]
  exact lexeme_ne_end c more

/-- The same behind the next token as it is read from any offset. -/
theorem Reaches.next {cs ds : List Char} (h : Reaches cs ds) (hds : Scan.skip ds = ds)
    (offset : Nat) : Scan.skip cs = ds ∨ Reaches (first offset cs).rest ds := by
  rcases h.skip hds with hhere | ⟨c, more, hskip, hrest⟩
  · exact .inl hhere
  · rw [(first_of_skip offset hskip).2]
    exact .inr hrest

/-! ## Text behind a text -/

/-- The line ends where a text begins. -/
def EndsLine (more : List Char) : Prop := ∀ c ∈ more.head?, c = '\n'

theorem EndsLine.cases {more : List Char} (h : EndsLine more) :
    more = [] ∨ ∃ next, more = '\n' :: next := by
  cases more with
  | nil => exact .inl rfl
  | cons c next => exact .inr ⟨next, by rw [h c rfl]⟩

theorem endsLine_break (next : List Char) : EndsLine ('\n' :: next) := by
  rintro c ⟨⟩
  rfl

/-- Text behind a text does not change what is read from it: either the line ends between them, or
something is left of the first text, which does not end in a character that needs another. -/
def Apart (cs rest more : List Char) : Prop :=
  EndsLine more ∨ rest ≠ [] ∧ ∀ c ∈ cs.getLast?, c ≠ ':' ∧ c ≠ '\\' ∧ c ≠ '/'

namespace Apart

variable {c d : Char} {cs rest rest' more : List Char}

theorem tail (h : Apart (c :: cs) rest more) : Apart cs rest more := by
  refine h.imp_right fun ⟨hleft, hlast⟩ => ⟨hleft, fun d hd => hlast d ?_⟩
  cases cs with
  | nil => cases hd
  | cons e es => simpa using hd

/-- All of a text is read only where its line ends. -/
theorem of_nil (h : Apart cs [] more) : more = [] ∨ ∃ next, more = '\n' :: next :=
  (h.resolve_right fun hleft => hleft.1 rfl).cases

theorem of_last (h : Apart cs rest more) (hlast : cs.getLast? = some c)
    (hc : c = ':' ∨ c = '\\' ∨ c = '/') : more = [] ∨ ∃ next, more = '\n' :: next := by
  refine (h.resolve_right fun ⟨_, hfree⟩ => ?_).cases
  obtain ⟨hcolon, hescape, hslash⟩ := hfree c hlast
  rcases hc with hc | hc | hc <;> contradiction

theorem head?_append (h : Apart cs rest more) (hd : d ≠ '\n') :
    (rest ++ more).head? = some d ↔ rest.head? = some d := by
  cases rest with
  | cons => simp
  | nil =>
      obtain rfl | ⟨next, rfl⟩ := h.of_nil
      · rfl
      · simp [Ne.symm hd]

end Apart

variable {cs more : List Char}

theorem path_before {read : List Char} (h : Apart cs (path read cs).rest more) :
    path read (cs ++ more) = ⟨(path read cs).read, (path read cs).rest ++ more⟩ := by
  fun_induction path read cs with
  | case1 read => obtain rfl | ⟨next, rfl⟩ := h.of_nil <;> rfl
  | case2 read c cs hstart ih => simpa [path, hstart] using ih h.tail.tail.tail
  | case3 read c cs hstart => simp [path, hstart]
  | case4 read c cs hcolons hword ih =>
      have hcolon : c ≠ ':' := by
        rintro rfl
        exact absurd hword (by decide)
      rw [List.cons_append, path_cons read fun _ _ hc => absurd hc hcolon, if_pos hword,
        ih h.tail]
  | case5 read c cs hcolons hword =>
      by_cases hpath : c = ':' ∧ cs = [':']
      · -- the line break is what follows the colons, and starts no word
        obtain ⟨rfl, rfl⟩ := hpath
        obtain rfl | ⟨next, rfl⟩ := h.of_last rfl (.inl rfl) <;> rfl
      · rw [List.cons_append, path_cons read, if_neg hword]
        rintro d ds rfl hds
        cases cs with
        | nil => obtain rfl | ⟨next, rfl⟩ := h.of_last rfl (.inl rfl) <;> cases hds
        | cons c₁ cs =>
            obtain ⟨rfl, hds⟩ := List.cons.inj hds
            cases cs with
            | nil => exact hpath ⟨rfl, rfl⟩
            | cons c₂ cs => exact hcolons c₂ cs rfl rfl

theorem inside_before {read : List Char} (h : Apart cs (inside read cs).rest more) :
    inside read (cs ++ more) = ⟨(inside read cs).read, (inside read cs).rest ++ more⟩ := by
  fun_induction inside read cs with
  | case1 read => obtain rfl | ⟨next, rfl⟩ := h.of_nil <;> rfl
  | case2 read => obtain rfl | ⟨next, rfl⟩ := h.of_last rfl (.inr (.inl rfl)) <;> rfl
  | case3 read c cs hline => simp [inside, hline]
  | case4 read c cs hline ih => simpa [inside, hline] using ih h.tail.tail
  | case5 read c cs hlone hpair hend =>
      have hescape : c ≠ '\\' := by
        rintro rfl
        simp at hend
      rw [List.cons_append, inside_cons _ _ hescape, if_pos hend]
  | case6 read c cs hlone hpair hend ih =>
      have hescape : c ≠ '\\' := by
        rintro rfl
        cases cs with
        | nil => exact hlone rfl rfl
        | cons d ds => exact hpair d ds rfl rfl
      rw [List.cons_append, inside_cons _ _ hescape, if_neg hend, ih h.tail]

theorem digits_before {value : Option Nat} {read : List Char}
    (h : Apart cs (digits value read cs).2.rest more) :
    digits value read (cs ++ more)
      = ((digits value read cs).1, ⟨(digits value read cs).2.read,
          (digits value read cs).2.rest ++ more⟩) := by
  fun_induction digits value read cs with
  | case1 value read => obtain rfl | ⟨next, rfl⟩ := h.of_nil <;> rfl
  | case2 value read c cs hnumber ih => simpa [digits, hnumber] using ih h.tail
  | case3 value read c cs hnumber => simp [digits, hnumber]

theorem symbol_before {c : Char} (h : Apart cs (symbol c cs).2.rest more) :
    symbol c (cs ++ more)
      = ((symbol c cs).1, ⟨(symbol c cs).2.read, (symbol c cs).2.rest ++ more⟩) := by
  fun_cases symbol c cs with
  | case1 =>
      have hbreak : TokenKind.ofPair? c '\n' = none := by
        unfold TokenKind.ofPair?
        split <;> simp_all
      obtain rfl | ⟨next, rfl⟩ := h.of_nil
      · rfl
      · simp [symbol, hbreak]
  | case2 d ds kind hkind => simp [symbol, hkind]
  | case3 d ds hkind => simp [symbol, hkind]

/-- A token ends where its line ends, if not before, and what is behind its end does not change
it. -/
theorem lexeme_before {c : Char} (h : Apart cs (lexeme c cs).2.rest more) :
    lexeme c (cs ++ more)
      = ((lexeme c cs).1, ⟨(lexeme c cs).2.read, (lexeme c cs).2.rest ++ more⟩) := by
  cases c, cs using lexeme_cases with
  | word c cs hword =>
      rw [lexeme_word hword] at h
      have hcolon := h.head?_append (d := ':') (by decide)
      rw [lexeme_word hword, lexeme_word hword, path_before h]
      simp only [wordKind, beq_iff_eq, hcolon]
  | number c cs hword hdigit =>
      rw [lexeme_number hword hdigit] at h
      rw [lexeme_number hword hdigit, lexeme_number hword hdigit, digits_before h]
  | closed cs tail htail =>
      have hinside : Apart cs (inside ['"'] cs).rest more := by
        rw [lexeme_closed htail] at h
        exact h.imp_right fun hlast => ⟨by simp [htail], hlast.2⟩
      have happend := inside_before hinside
      have hrest : (inside ['"'] (cs ++ more)).rest = '"' :: (tail ++ more) := by
        rw [happend, htail]
        rfl
      rw [lexeme_closed htail, lexeme_closed hrest, happend]
  | unclosed cs hclosed =>
      rw [lexeme_unclosed hclosed] at h
      have happend := inside_before h
      have hunclosed : (inside ['"'] (cs ++ more)).rest.head? ≠ some '"' := by
        rw [happend]
        exact fun hquote => hclosed ((h.head?_append (by decide)).1 hquote)
      rw [lexeme_unclosed hclosed, lexeme_unclosed hunclosed, happend]
  | symbol c cs hword hdigit hquote =>
      rw [lexeme_symbol hword hdigit hquote] at h
      rw [lexeme_symbol hword hdigit hquote, lexeme_symbol hword hdigit hquote, symbol_before h]

/-! ## Lines -/

/-- What is cut off a line does not depend on the next line, unless it is a comment, which takes all
of the line. -/
theorem afterPiece_line {c : Char} {line : List Char} (hline : '\n' ∉ line) (rest : List Char) :
    afterPiece c (line ++ '\n' :: rest) = afterPiece c line ++ '\n' :: rest ∨
      (afterPiece c line = [] ∧ afterPiece c (line ++ '\n' :: rest) = rest) := by
  by_cases hblank : isBlank c = true
  · rw [afterPiece_blank hblank, afterPiece_blank hblank]
    exact .inl rfl
  have hhead : ((line ++ '\n' :: rest).head? == some '/') = (line.head? == some '/') := by
    cases line <;> rfl
  by_cases hcomment : (c == '/' && line.head? == some '/') = true
  · have hcomment' : (c == '/' && (line ++ '\n' :: rest).head? == some '/') = true := by
      rwa [hhead]
    rw [afterPiece_comment hblank hcomment, afterPiece_comment hblank hcomment']
    have hall : ∀ d ∈ line, (d != '\n') = true := by
      intro d hd
      have hne : d ≠ '\n' := fun h => hline (h ▸ hd)
      simpa using hne
    refine .inr ⟨?_, ?_⟩
    · have hnone : line.dropWhile (· != '\n') = [] := List.dropWhile_eq_nil_iff.2 hall
      rw [hnone]
      rfl
    · rw [List.dropWhile_append_of_pos hall]
      simp
  · have hcomment' : ¬(c == '/' && (line ++ '\n' :: rest).head? == some '/') = true := by
      rwa [hhead]
    rw [afterPiece_token hblank hcomment, afterPiece_token hblank hcomment',
      lexeme_before (.inl (endsLine_break rest))]
    exact .inl rfl

namespace Reaches

/-- A place inside a line is come to whatever line follows. -/
theorem append_line {line ds : List Char} (h : Reaches line ds) (hds : ds ≠ [])
    (hline : '\n' ∉ line) (rest : List Char) :
    Reaches (line ++ '\n' :: rest) (ds ++ '\n' :: rest) := by
  induction h with
  | refl line => exact .refl _
  | @piece c line ds h ih =>
      have hline : '\n' ∉ line := fun hmem => hline (List.mem_cons_of_mem _ hmem)
      rcases afterPiece_line hline rest (c := c) with hsame | ⟨hnone, _⟩
      · rw [List.cons_append]
        refine .piece ?_
        rw [hsame]
        exact ih hds fun hmem => hline ((afterPiece_suffix c line).subset hmem)
      · rw [hnone] at h
        exact absurd h.nil_eq hds

/-- Scanning comes from any line to the next. -/
theorem line {line : List Char} (hline : '\n' ∉ line) (rest : List Char) :
    Reaches (line ++ '\n' :: rest) rest := by
  induction line using pieces_induction with
  | nil => exact .blank rfl (.refl rest)
  | piece c line ih =>
      have hline : '\n' ∉ line := fun hmem => hline (List.mem_cons_of_mem _ hmem)
      rw [List.cons_append]
      refine .piece ?_
      rcases afterPiece_line hline rest (c := c) with hsame | ⟨_, hnext⟩
      · rw [hsame]
        exact ih fun hmem => hline ((afterPiece_suffix c line).subset hmem)
      · -- a comment takes the line break with it
        rw [hnext]
        exact .refl rest

/-- Where scanning comes to from a line is inside the line, or is come to from the next. -/
theorem of_line {line rest es : List Char} (hline : '\n' ∉ line)
    (h : Reaches (line ++ '\n' :: rest) es) :
    (∃ ds, es = ds ++ '\n' :: rest ∧ Reaches line ds) ∨ Reaches rest es := by
  induction line using pieces_induction with
  | nil =>
      cases h with
      | refl => exact .inl ⟨[], rfl, .refl _⟩
      | piece h => exact .inr h
  | piece c line ih =>
      have hline : '\n' ∉ line := fun hmem => hline (List.mem_cons_of_mem _ hmem)
      rw [List.cons_append] at h
      cases h with
      | refl => exact .inl ⟨c :: line, rfl, .refl _⟩
      | piece h =>
          rcases afterPiece_line hline rest (c := c) with hsame | ⟨_, hnext⟩
          · rw [hsame] at h
            rcases ih (fun hmem => hline ((afterPiece_suffix c line).subset hmem)) h with
              ⟨ds, hes, hds⟩ | hrest
            · exact .inl ⟨ds, hes, .piece hds⟩
            · exact .inr hrest
          · -- the first piece is a comment, so what it ends with is the line itself
            rw [hnext] at h
            exact .inr h

end Reaches

end TwoPhase.Scan
