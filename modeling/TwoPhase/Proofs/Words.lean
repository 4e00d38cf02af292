import TwoPhase.Proofs.Reads

/-!
# Texts as words

A word is a token without its span.  The parser sees the words of a text, in whatever lines and at
whatever distance from each other they stand.
-/

namespace TwoPhase

namespace Scan

variable {cs ds more rest read : List Char} {c : Char} {kind : TokenKind}

/-- The words of a text. -/
def words (cs : List Char) : List (TokenKind × List Char) :=
  (tokens 0 cs).map fun token => (token.kind, token.lexeme)

/-! ## The first word -/

theorem first_of_skip_nil (offset : Nat) (h : skip cs = []) :
    (first offset cs).token.kind = .endOfInput ∧ (first offset cs).token.lexeme = [] ∧
      (first offset cs).rest = [] := by
  rw [first_of_trivia_nil offset (trivia_of_skip h)]
  exact ⟨rfl, rfl, rfl⟩

theorem first_lexeme_of_skip (offset : Nat) (h : skip cs = c :: more) :
    (first offset cs).token.lexeme = (lexeme c more).2.read := by
  rw [first_of_trivia offset (trivia_of_skip h)]

theorem tokens_of_skip_nil (offset : Nat) (h : skip cs = []) : tokens offset cs = [] := by
  rw [tokens, dif_pos (first_of_skip_nil offset h).2.1]

/-- Induction on the tokens of a text: behind the last one, and from behind the first. -/
theorem tokens_induction {P : Nat → List Char → Prop}
    (nil : ∀ offset cs, skip cs = [] → P offset cs)
    (cons : ∀ offset cs, skip cs ≠ [] → (first offset cs).token.kind ≠ .endOfInput →
      P (first offset cs).token.span.stop (first offset cs).rest → P offset cs)
    (offset : Nat) (cs : List Char) : P offset cs := by
  induction hlength : cs.length using Nat.strongRecOn generalizing offset cs with
  | ind n ih =>
      cases hskip : skip cs with
      | nil => exact nil offset cs hskip
      | cons c more =>
          have hkind := first_kind_ne_end offset hskip
          -- the rest of the text is shorter, as a token that is not the last has a character
          have hshort := first_rest_length offset cs (first_lexeme_ne_nil hkind)
          exact cons offset cs (by simp [hskip]) hkind (ih _ (by omega) _ _ rfl)

/-- The words of a text do not depend on where it stands. -/
theorem words_eq (offset : Nat) (cs : List Char) :
    (tokens offset cs).map (fun token => (token.kind, token.lexeme)) = words cs := by
  have hany : ∀ offset', (tokens offset cs).map (fun token => (token.kind, token.lexeme))
      = (tokens offset' cs).map (fun token => (token.kind, token.lexeme)) := by
    induction offset, cs using tokens_induction with
    | nil offset cs hskip =>
        intro offset'
        rw [tokens_of_skip_nil _ hskip, tokens_of_skip_nil _ hskip]
    | cons offset cs hskip hend ih =>
        intro offset'
        obtain ⟨c, more, hcons⟩ := List.exists_cons_of_ne_nil hskip
        obtain ⟨hkind, hrest⟩ := first_of_skip offset hcons
        obtain ⟨hkind', hrest'⟩ := first_of_skip offset' hcons
        rw [hrest] at ih
        rw [tokens_cons hend, tokens_cons (first_kind_ne_end offset' hcons), List.map_cons,
          List.map_cons, hkind, hkind', hrest, hrest', first_lexeme_of_skip offset hcons,
          first_lexeme_of_skip offset' hcons, ih]
  exact hany 0

theorem words_of_skip_nil (h : skip cs = []) : words cs = [] := by
  rw [words, tokens_of_skip_nil 0 h, List.map_nil]

theorem words_of_skip_cons (h : skip cs = c :: more) :
    words cs = ((lexeme c more).1, (lexeme c more).2.read) :: words (lexeme c more).2.rest := by
  obtain ⟨hkind, hrest⟩ := first_of_skip 0 h
  rw [words, tokens_cons (first_kind_ne_end 0 h), List.map_cons, hkind, hrest,
    first_lexeme_of_skip 0 h, words_eq]

/-- Texts with the same words start with the same word, whatever stands before it. -/
theorem first_of_words (h : words cs = words ds) (offset offset' : Nat) :
    (first offset cs).token.kind = (first offset' ds).token.kind ∧
      (first offset cs).token.lexeme = (first offset' ds).token.lexeme ∧
      words (first offset cs).rest = words (first offset' ds).rest := by
  cases hcs : skip cs with
  | nil =>
      rw [words_of_skip_nil hcs] at h
      cases hds : skip ds with
      | nil =>
          obtain ⟨hkind, hread, hrest⟩ := first_of_skip_nil offset hcs
          obtain ⟨hkind', hread', hrest'⟩ := first_of_skip_nil offset' hds
          rw [hkind, hkind', hread, hread', hrest, hrest']
          exact ⟨rfl, rfl, rfl⟩
      | cons d more =>
          rw [words_of_skip_cons hds] at h
          cases h
  | cons c more =>
      rw [words_of_skip_cons hcs] at h
      cases hds : skip ds with
      | nil =>
          rw [words_of_skip_nil hds] at h
          cases h
      | cons d more' =>
          rw [words_of_skip_cons hds] at h
          obtain ⟨hword, hmore⟩ := List.cons.inj h
          obtain ⟨hsame, hsame'⟩ := Prod.mk.inj hword
          obtain ⟨hkind, hrest⟩ := first_of_skip offset hcs
          obtain ⟨hkind', hrest'⟩ := first_of_skip offset' hds
          rw [hkind, hkind', hrest, hrest', first_lexeme_of_skip offset hcs,
            first_lexeme_of_skip offset' hds]
          exact ⟨hsame, hsame', hmore⟩

/-! ## Words in front of a text -/

theorem words_skip (h : skip cs = skip ds) : words cs = words ds := by
  cases hds : skip ds with
  | nil => rw [words_of_skip_nil hds, words_of_skip_nil (h.trans hds)]
  | cons c more => rw [words_of_skip_cons hds, words_of_skip_cons (h.trans hds)]

theorem words_blank (h : isBlank c = true) (cs : List Char) : words (c :: cs) = words cs :=
  words_skip (skip_blank h cs)

theorem words_token (hskip : skip cs = c :: more) (hlexeme : lexeme c more = (kind, ⟨read, rest⟩)) :
    words cs = (kind, read) :: words rest := by
  rw [words_of_skip_cons hskip, hlexeme]

/-- A text without words is skipped up to the next line. -/
theorem skip_line {line : List Char} (hline : '\n' ∉ line) (h : skip line = [])
    (rest : List Char) : skip (line ++ '\n' :: rest) = skip rest := by
  induction line with
  | nil => exact skip_blank rfl rest
  | cons c line ih =>
      have hline : '\n' ∉ line := fun hmem => hline (List.mem_cons_of_mem c hmem)
      rw [List.cons_append]
      by_cases hblank : isBlank c = true
      · rw [skip_blank hblank] at h ⊢
        exact ih hline h
      by_cases hcomment : (c == '/' && line.head? == some '/') = true
      · have hcomment' : (c == '/' && (line ++ '\n' :: rest).head? == some '/') = true := by
          cases line with
          | nil => simp at hcomment
          | cons d line => exact hcomment
        have hall : ∀ d ∈ line, (d != '\n') = true := fun d hd =>
          bne_iff_ne.2 fun heq => hline (heq ▸ hd)
        rw [skip_comment hblank hcomment', List.dropWhile_append_of_pos hall]
        rfl
      · rw [skip_token hblank hcomment] at h
        cases h

end Scan

/-! ## The words that deferral splices in -/

open Scan (words words_token)

/-- The words of a marker. -/
def clearWords (depth : Nat) : List (TokenKind × List Char) :=
  [(.kwBegin, ['n', 'i', 'g', 'e', 'b']), (.braceOpen, ['\x7b']),
    (.ident clearName, clearName.toList.reverse), (.parenOpen, ['(']),
    (Scan.numberKind depth, (Nat.toDigits 10 depth).reverse), (.parenClose, [')']),
    (.braceClose, ['\x7d'])]

/-- The words of a dispatch call and a marker. -/
def fragmentWords (depth : Nat) : List (TokenKind × List Char) :=
  [(.ident dispatchName, dispatchName.toList.reverse), (.parenOpen, ['(']), (.parenClose, [')']),
    (.semicolon, [';'])] ++ clearWords depth

theorem words_braceClose (rest : List Char) :
    words ('\x7d' :: rest) = (.braceClose, ['\x7d']) :: words rest :=
  words_token (c := '\x7d') rfl (Scan.symbol_alone Scan.ofPair?_brace rest)

theorem words_parenOpen (rest : List Char) :
    words ('(' :: rest) = (.parenOpen, ['(']) :: words rest := by
  refine words_token (c := '(') rfl (Scan.symbol_alone (fun d => ?_) rest)
  unfold TokenKind.ofPair?
  split <;> simp_all

theorem words_clearFragment (depth : Nat) (rest : List Char) :
    words ((clearFragment depth).toList ++ rest) = clearWords depth ++ words rest := by
  rw [toList_clearFragment, List.append_assoc, List.append_assoc]
  have hbrace : words (" \x7d".toList ++ rest) = (.braceClose, ['\x7d']) :: words rest :=
    (Scan.words_blank (c := ' ') rfl _).trans (words_braceClose rest)
  have hclose : words (") \x7d".toList ++ rest)
      = (.parenClose, [')']) :: words (" \x7d".toList ++ rest) :=
    words_token (c := ')') rfl rfl
  obtain ⟨d, ds, hskip, hlexeme⟩ :=
    Scan.lexeme_number_append depth (c := ')') rfl (" \x7d".toList ++ rest)
  have hnumber : words (Nat.toDigits 10 depth ++ (") \x7d".toList ++ rest))
      = (Scan.numberKind depth, (Nat.toDigits 10 depth).reverse) ::
        words (") \x7d".toList ++ rest) :=
    words_token hskip hlexeme
  rw [hclose, hbrace] at hnumber
  generalize Nat.toDigits 10 depth ++ (") \x7d".toList ++ rest) = cs at hnumber
  calc words ("begin \x7b at_runtime::clear(".toList ++ cs)
      = (.kwBegin, ['n', 'i', 'g', 'e', 'b']) :: words (" \x7b at_runtime::clear(".toList ++ cs) :=
        words_token (c := 'b') rfl rfl
    _ = (.kwBegin, ['n', 'i', 'g', 'e', 'b']) :: (.braceOpen, ['\x7b']) ::
          words (" at_runtime::clear(".toList ++ cs) :=
        congrArg _ (words_token (c := '\x7b') rfl rfl)
    _ = (.kwBegin, ['n', 'i', 'g', 'e', 'b']) :: (.braceOpen, ['\x7b']) ::
          (.ident clearName, clearName.toList.reverse) :: words ('(' :: cs) :=
        congrArg _ (congrArg _ (words_token (c := 'a') rfl rfl))
    _ = clearWords depth ++ words rest := by
        rw [words_parenOpen, hnumber]
        rfl

theorem words_dispatchFragment (depth : Nat) (rest : List Char) :
    words ((dispatchFragment depth).toList ++ rest) = fragmentWords depth ++ words rest := by
  have hclear := words_clearFragment depth rest
  rw [toList_dispatchFragment, List.append_assoc]
  generalize (clearFragment depth).toList ++ rest = cs at hclear
  calc words ("at_runtime::dispatch(); ".toList ++ cs)
      = (.ident dispatchName, dispatchName.toList.reverse) :: words ("(); ".toList ++ cs) :=
        words_token (c := 'a') rfl rfl
    _ = (.ident dispatchName, dispatchName.toList.reverse) :: (.parenOpen, ['(']) ::
          words ("); ".toList ++ cs) :=
        congrArg _ (words_token (c := '(') rfl rfl)
    _ = (.ident dispatchName, dispatchName.toList.reverse) :: (.parenOpen, ['(']) ::
          (.parenClose, [')']) :: words ("; ".toList ++ cs) :=
        congrArg _ (congrArg _ (words_token (c := ')') rfl rfl))
    _ = (.ident dispatchName, dispatchName.toList.reverse) :: (.parenOpen, ['(']) ::
          (.parenClose, [')']) :: (.semicolon, [';']) :: words (' ' :: cs) :=
        congrArg _ (congrArg _ (congrArg _ (words_token (c := ';') rfl rfl)))
    _ = fragmentWords depth ++ words rest := by
        rw [Scan.words_blank rfl, hclear]
        rfl

end TwoPhase
