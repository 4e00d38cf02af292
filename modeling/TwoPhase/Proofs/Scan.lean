import TwoPhase.Token.Scan

/-!
# Scanning is local

Whether a text is changed far ahead does not show in its next token.  A token ends where the text
behind it says so, but no token looks past a closing brace: two texts that are the same up to and
including their first closing brace (`SameToBrace`) can stand for each other behind any token, and
behind a closing brace any text can.

So a text may be replaced behind a closing brace as soon as that brace is the next token, or will be
after some tokens (`Ahead`).
-/

namespace TwoPhase.Scan

/-! ## Texts up to a brace -/

/-- Two texts that are equal, or equal up to and including the first closing brace. -/
def SameToBrace : List Char → List Char → Prop
  | [], ds => ds = []
  | c :: cs, ds => ∃ ds', ds = c :: ds' ∧ (c = '}' ∨ SameToBrace cs ds')

namespace SameToBrace

variable {cs ds : List Char} {c : Char}

theorem refl : ∀ cs, SameToBrace cs cs
  | [] => rfl
  | _ :: cs => ⟨cs, rfl, .inr (refl cs)⟩

theorem cons (h : c = '}' ∨ SameToBrace cs ds) : SameToBrace (c :: cs) (c :: ds) := ⟨ds, rfl, h⟩

theorem nil_eq (h : SameToBrace [] ds) : ds = [] := h

theorem cons_cases (h : SameToBrace (c :: cs) ds) :
    ∃ ds', ds = c :: ds' ∧ (c = '}' ∨ SameToBrace cs ds') := h

theorem head?_eq (h : SameToBrace cs ds) : ds.head? = cs.head? := by
  cases cs with
  | nil => rw [h.nil_eq]
  | cons c cs =>
      obtain ⟨ds', rfl, _⟩ := h.cons_cases
      rfl

/-- Behind any character but a closing brace, the next one is the same too. -/
theorem second (h : SameToBrace (c :: cs) ds) (hc : c ≠ '}') :
    ∃ ds', ds = c :: ds' ∧ SameToBrace cs ds' := by
  obtain ⟨ds', hds, hbrace | hsame⟩ := h.cons_cases
  · exact absurd hbrace hc
  · exact ⟨ds', hds, hsame⟩

end SameToBrace

/-! ## Reading -/

theorem trivia_swap (inComment : Bool) (read cs : List Char) {rest : List Char}
    (h : SameToBrace (trivia inComment read cs).rest rest) :
    ∃ cs', trivia inComment read cs' = ⟨(trivia inComment read cs).read, rest⟩ ∧
      SameToBrace cs cs' := by
  fun_induction trivia inComment read cs with
  | case1 inComment read => exact ⟨[], by rw [h.nil_eq]; rfl, rfl⟩
  | case2 read c cs ih =>
      obtain ⟨cs', hcs', hsame⟩ := ih h
      exact ⟨c :: cs', by simpa [trivia] using hcs', .cons (.inr hsame)⟩
  | case3 inComment read c cs hcomment hblank ih =>
      obtain ⟨cs', hcs', hsame⟩ := ih h
      exact ⟨c :: cs', by simpa [trivia, hcomment, hblank] using hcs', .cons (.inr hsame)⟩
  | case4 inComment read c cs hcomment hblank hslash ih =>
      obtain ⟨cs', hcs', hsame⟩ := ih h
      refine ⟨c :: cs', ?_, .cons (.inr hsame)⟩
      rw [← hsame.head?_eq] at hslash
      simpa [trivia, hcomment, hblank, hslash] using hcs'
  | case5 inComment read c cs hcomment hblank hslash =>
      obtain ⟨rest', rfl, hrest⟩ := h.cons_cases
      refine ⟨c :: rest', ?_, h⟩
      have hslash' : (c == '/' && rest'.head? == some '/') = false := by
        rcases hrest with rfl | hsame
        · simp
        · rw [hsame.head?_eq]
          simpa using hslash
      simp [trivia, hcomment, hblank, hslash']

/-- A character that starts no `::` belongs to a word or ends it. -/
theorem path_cons (read : List Char) {c : Char} {cs : List Char}
    (h : ∀ d ds, c = ':' → cs = ':' :: d :: ds → False) :
    path read (c :: cs) = if isWordChar c then path (c :: read) cs else ⟨read, c :: cs⟩ := by
  rw [path]
  exact h

theorem path_swap (read cs : List Char) {rest : List Char}
    (h : SameToBrace (path read cs).rest rest) :
    ∃ cs', path read cs' = ⟨(path read cs).read, rest⟩ ∧ SameToBrace cs cs' := by
  fun_induction path read cs with
  | case1 read => exact ⟨[], by rw [h.nil_eq]; rfl, rfl⟩
  | case2 read c cs hstart ih =>
      obtain ⟨cs', hcs', hsame⟩ := ih h
      exact ⟨':' :: ':' :: c :: cs', by simpa [path, hstart] using hcs',
        .cons (.inr (.cons (.inr (.cons (.inr hsame)))))⟩
  | case3 read c cs hstart =>
      obtain ⟨rest₁, rfl, h₁⟩ := h.second (by decide)
      obtain ⟨rest₂, rfl, h₂⟩ := h₁.second (by decide)
      obtain ⟨rest₃, rfl, h₃⟩ := h₂.cons_cases
      exact ⟨_, by simp [path, hstart], h⟩
  | case4 read c cs hcolons hword ih =>
      obtain ⟨cs', hcs', hsame⟩ := ih h
      refine ⟨c :: cs', ?_, .cons (.inr hsame)⟩
      have hcolon : c ≠ ':' := by
        rintro rfl
        exact absurd hword (by decide)
      rw [path_cons read fun _ _ hc => absurd hc hcolon, if_pos hword, hcs']
  | case5 read c cs hcolons hword =>
      obtain ⟨rest', rfl, hrest⟩ := h.cons_cases
      refine ⟨c :: rest', ?_, h⟩
      rw [path_cons read, if_neg hword]
      -- a second colon and what follows it would be the same in both texts
      rintro d ds rfl rfl
      rcases hrest with hbrace | hsame
      · exact absurd hbrace (by decide)
      cases cs with
      | nil => cases hsame.nil_eq
      | cons c₁ cs =>
          obtain ⟨ds₁, hds₁, hsame₁⟩ := hsame.cons_cases
          obtain ⟨rfl, rfl⟩ := List.cons.inj hds₁
          rcases hsame₁ with hbrace | hsame₁
          · exact absurd hbrace (by decide)
          cases cs with
          | nil => cases hsame₁.nil_eq
          | cons c₂ cs => exact hcolons c₂ cs rfl rfl

theorem inside_cons (read : List Char) {c : Char} (cs : List Char) (h : c ≠ '\\') :
    inside read (c :: cs) =
      if c == '"' || c == '\n' || c == '\r' then ⟨read, c :: cs⟩ else inside (c :: read) cs := by
  rw [inside] <;> intros <;> contradiction

theorem inside_swap (read cs : List Char) {rest : List Char}
    (h : SameToBrace (inside read cs).rest rest) :
    ∃ cs', inside read cs' = ⟨(inside read cs).read, rest⟩ ∧ SameToBrace cs cs' := by
  -- case by case along the text in front of the end of the string
  fun_induction inside read cs with
  | case1 read => exact ⟨[], by rw [h.nil_eq]; rfl, rfl⟩
  | case2 read =>
      obtain ⟨rest', rfl, hrest⟩ := h.second (by decide)
      rw [hrest.nil_eq]
      exact ⟨['\\'], rfl, .refl _⟩
  | case3 read c cs hline =>
      obtain ⟨rest₁, rfl, h₁⟩ := h.second (by decide)
      obtain ⟨rest₂, rfl, _⟩ := h₁.cons_cases
      exact ⟨_, by simp [inside, hline], h⟩
  | case4 read c cs hline ih =>
      obtain ⟨cs', hcs', hsame⟩ := ih h
      exact ⟨'\\' :: c :: cs', by simpa [inside, hline] using hcs',
        .cons (.inr (.cons (.inr hsame)))⟩
  | case5 read c cs hlone hpair hend =>
      obtain ⟨rest', rfl, _⟩ := h.cons_cases
      have hescape : c ≠ '\\' := by
        rintro rfl
        cases cs with
        | nil => exact hlone rfl rfl
        | cons d ds => exact hpair d ds rfl rfl
      exact ⟨c :: rest', by rw [inside_cons _ _ hescape, if_pos hend], h⟩
  | case6 read c cs hlone hpair hend ih =>
      obtain ⟨cs', hcs', hsame⟩ := ih h
      have hescape : c ≠ '\\' := by
        rintro rfl
        cases cs with
        | nil => exact hlone rfl rfl
        | cons d ds => exact hpair d ds rfl rfl
      exact ⟨c :: cs', by rw [inside_cons _ _ hescape, if_neg hend, hcs'], .cons (.inr hsame)⟩

theorem digits_swap (value : Option Nat) (read cs : List Char) {rest : List Char}
    (h : SameToBrace (digits value read cs).2.rest rest) :
    ∃ cs', digits value read cs' =
      ((digits value read cs).1, ⟨(digits value read cs).2.read, rest⟩) ∧
      SameToBrace cs cs' := by
  fun_induction digits value read cs with
  | case1 value read => exact ⟨[], by rw [h.nil_eq]; rfl, rfl⟩
  | case2 value read c cs hnumber ih =>
      obtain ⟨cs', hcs', hsame⟩ := ih h
      exact ⟨c :: cs', by simpa [digits, hnumber] using hcs', .cons (.inr hsame)⟩
  | case3 value read c cs hnumber =>
      obtain ⟨rest', rfl, _⟩ := h.cons_cases
      exact ⟨c :: rest', by simp [digits, hnumber], h⟩

theorem ofPair?_brace (d : Char) : TokenKind.ofPair? '}' d = none := by
  unfold TokenKind.ofPair?
  split <;> simp_all

theorem symbol_swap (c : Char) (cs : List Char) {rest : List Char}
    (h : c = '}' ∨ SameToBrace (symbol c cs).2.rest rest) :
    ∃ cs', symbol c cs' = ((symbol c cs).1, ⟨(symbol c cs).2.read, rest⟩) ∧
      (c = '}' ∨ SameToBrace cs cs') := by
  rcases h with rfl | h
  · -- no symbol of two characters starts with a closing brace
    have hbrace : ∀ ds, symbol '}' ds = (.ofChar '}', ⟨['}'], ds⟩) := by
      intro ds
      cases ds with
      | nil => rfl
      | cons d ds => simp [symbol, ofPair?_brace]
    exact ⟨rest, by rw [hbrace, hbrace], .inl rfl⟩
  · fun_cases symbol c cs with
    | case1 =>
        have hrest : rest = [] := h
        exact ⟨[], by rw [hrest]; rfl, .inr rfl⟩
    | case2 d ds kind hkind =>
        have hrest : SameToBrace ds rest := by simpa [symbol, hkind] using h
        exact ⟨d :: rest, by simp [symbol, hkind], .inr (.cons (.inr hrest))⟩
    | case3 d ds hkind =>
        have hrest : SameToBrace (d :: ds) rest := by simpa [symbol, hkind] using h
        obtain ⟨rest', rfl, _⟩ := hrest.cons_cases
        exact ⟨d :: rest', by simp [symbol, hkind], .inr hrest⟩

/-- The symbol of a kind that no two characters spell is the character that spells it. -/
theorem symbol_kind {c : Char} {cs : List Char} {kind : TokenKind}
    (hpair : ∀ d, TokenKind.ofPair? c d ≠ some kind) (h : (symbol c cs).1 = kind) :
    TokenKind.ofChar c = kind := by
  fun_cases symbol c cs with
  | case1 => exact h
  | case2 d ds kind' hkind =>
      simp only [symbol, hkind] at h
      exact absurd (h ▸ hkind) (hpair d)
  | case3 d ds hkind =>
      simp only [symbol, hkind] at h
      exact h

/-! ## Tokens -/

theorem lexeme_word {c : Char} (hword : isWordStart c = true) (cs : List Char) :
    lexeme c cs = (wordKind (path [c] cs).read.reverse (path [c] cs).rest, path [c] cs) := by
  simp [lexeme, hword]

theorem lexeme_number {c : Char} (hword : ¬isWordStart c = true) (hdigit : c.isDigit = true)
    (cs : List Char) : lexeme c cs =
      (match (digits (withDigit (some 0) c) [c] cs).1 with
        | some value => .int (Int64.ofNat value)
        | none => .bad .integerOutOfRange, (digits (withDigit (some 0) c) [c] cs).2) := by
  simp only [lexeme, if_neg hword, if_pos hdigit]
  cases (digits (withDigit (some 0) c) [c] cs).1 <;> rfl

theorem lexeme_closed {cs rest : List Char} (h : (inside ['"'] cs).rest = '"' :: rest) :
    lexeme '"' cs = (.str (Text.Escape.decode ((inside ['"'] cs).read.reverse.drop 1)),
      ⟨'"' :: (inside ['"'] cs).read, rest⟩) := by
  have hword : isWordStart '"' = false := by decide
  have hdigit : '"'.isDigit = false := by decide
  simp [lexeme, hword, hdigit, h]

theorem lexeme_unclosed {cs : List Char} (h : (inside ['"'] cs).rest.head? ≠ some '"') :
    lexeme '"' cs = (.bad .unterminatedString, inside ['"'] cs) := by
  have hword : isWordStart '"' = false := by decide
  have hdigit : '"'.isDigit = false := by decide
  simp only [lexeme, hword, hdigit, Bool.false_eq_true, if_false, beq_self_eq_true, if_true]
  split
  · rename_i hrest
    simp [hrest] at h
  · rfl

theorem lexeme_symbol {c : Char} (hword : ¬isWordStart c = true) (hdigit : ¬c.isDigit = true)
    (hquote : c ≠ '"') (cs : List Char) : lexeme c cs = symbol c cs := by
  simp [lexeme, hword, hdigit, hquote]

/-- A token is a word, a number, a string with or without its closing quote, or a symbol. -/
theorem lexeme_cases {P : Char → List Char → Prop}
    (word : ∀ c cs, isWordStart c = true → P c cs)
    (number : ∀ c cs, ¬isWordStart c = true → c.isDigit = true → P c cs)
    (closed : ∀ cs rest, (inside ['"'] cs).rest = '"' :: rest → P '"' cs)
    (unclosed : ∀ cs, (inside ['"'] cs).rest.head? ≠ some '"' → P '"' cs)
    (symbol : ∀ c cs, ¬isWordStart c = true → ¬c.isDigit = true → c ≠ '"' → P c cs)
    (c : Char) (cs : List Char) : P c cs := by
  by_cases hword : isWordStart c = true
  · exact word c cs hword
  by_cases hdigit : c.isDigit = true
  · exact number c cs hword hdigit
  by_cases hquote : c = '"'
  · subst hquote
    by_cases hclosed : (inside ['"'] cs).rest.head? = some '"'
    · obtain ⟨rest, hrest⟩ := List.head?_eq_some_iff.1 hclosed
      exact closed cs rest hrest
    · exact unclosed cs hclosed
  · exact symbol c cs hword hdigit hquote

/-- What a token is does not depend on the text behind it past a closing brace. -/
theorem lexeme_swap (c : Char) (cs : List Char) {rest : List Char}
    (h : c = '}' ∨ SameToBrace (lexeme c cs).2.rest rest) :
    ∃ cs', lexeme c cs' = ((lexeme c cs).1, ⟨(lexeme c cs).2.read, rest⟩) ∧
      (c = '}' ∨ SameToBrace cs cs') := by
  cases c, cs using lexeme_cases with
  | word c cs hword =>
      -- neither a word nor a number starts with a brace
      have hsame := h.resolve_left (by rintro rfl; exact absurd hword (by decide))
      rw [lexeme_word hword] at hsame ⊢
      obtain ⟨cs', hcs', hcs⟩ := path_swap [c] cs hsame
      refine ⟨cs', ?_, .inr hcs⟩
      rw [lexeme_word hword, hcs']
      simp only [wordKind, hsame.head?_eq]
  | number c cs hword hdigit =>
      have hsame := h.resolve_left (by rintro rfl; exact absurd hdigit (by decide))
      rw [lexeme_number hword hdigit] at hsame ⊢
      obtain ⟨cs', hcs', hcs⟩ := digits_swap (withDigit (some 0) c) [c] cs hsame
      exact ⟨cs', by rw [lexeme_number hword hdigit, hcs'], .inr hcs⟩
  | closed cs tail htail =>
      have hsame := h.resolve_left (by decide)
      rw [lexeme_closed htail] at hsame ⊢
      obtain ⟨cs', hcs', hcs⟩ := inside_swap ['"'] cs (htail ▸ SameToBrace.cons (.inr hsame))
      have hinside : (inside ['"'] cs').rest = '"' :: rest := by rw [hcs']
      exact ⟨cs', by rw [lexeme_closed hinside, hcs'], .inr hcs⟩
  | unclosed cs hclosed =>
      have hsame := h.resolve_left (by decide)
      rw [lexeme_unclosed hclosed] at hsame ⊢
      obtain ⟨cs', hcs', hcs⟩ := inside_swap ['"'] cs hsame
      refine ⟨cs', ?_, .inr hcs⟩
      rw [lexeme_unclosed (by rwa [hcs', hsame.head?_eq]), hcs']
  | symbol c cs hword hdigit hquote =>
      rw [lexeme_symbol hword hdigit hquote] at h ⊢
      obtain ⟨cs', hcs', hcs⟩ := symbol_swap c cs h
      exact ⟨cs', by rw [lexeme_symbol hword hdigit hquote, hcs'], hcs⟩

/-- A word spells an identifier or one of the keywords. -/
theorem ofWord_cases (word : List Char) : TokenKind.ofWord word = .ident (String.ofList word) ∨
    ∃ entry ∈ TokenKind.keywords, TokenKind.ofWord word = entry.2 := by
  unfold TokenKind.ofWord
  cases hlookup : TokenKind.keywords.lookup word with
  | none => exact .inl rfl
  | some kind =>
      rw [List.lookup_eq_some_iff] at hlookup
      obtain ⟨before, after, hkeywords, _⟩ := hlookup
      exact .inr ⟨(word, kind), by simp [hkeywords], rfl⟩

theorem ofWord_ne {kind : TokenKind} (hkeywords : ∀ entry ∈ TokenKind.keywords, entry.2 ≠ kind)
    (hident : ∀ name, .ident name ≠ kind) (word : List Char) : TokenKind.ofWord word ≠ kind := by
  rcases ofWord_cases word with hword | ⟨entry, hmem, hkind⟩
  · rw [hword]
    exact hident _
  · rw [hkind]
    exact hkeywords entry hmem

/-- A token that is neither a word, a number nor a string is a symbol. -/
theorem lexeme_kind {c : Char} {cs : List Char} {kind : TokenKind}
    (hkeywords : ∀ entry ∈ TokenKind.keywords, entry.2 ≠ kind) (hident : ∀ name, .ident name ≠ kind)
    (hint : ∀ value, .int value ≠ kind) (hstr : ∀ value, .str value ≠ kind)
    (hnumber : .bad .integerOutOfRange ≠ kind) (hstring : .bad .unterminatedString ≠ kind)
    (h : (lexeme c cs).1 = kind) : (symbol c cs).1 = kind := by
  cases c, cs using lexeme_cases with
  | word c cs hword =>
      rw [lexeme_word hword] at h
      simp only [wordKind] at h
      split at h
      · exact absurd h (hident _)
      · exact absurd h (ofWord_ne hkeywords hident _)
  | number c cs hword hdigit =>
      rw [lexeme_number hword hdigit] at h
      dsimp only at h
      split at h
      · exact absurd h (hint _)
      · exact absurd h hnumber
  | closed cs tail htail =>
      rw [lexeme_closed htail] at h
      exact absurd h (hstr _)
  | unclosed cs hclosed =>
      rw [lexeme_unclosed hclosed] at h
      exact absurd h hstring
  | symbol c cs hword hdigit hquote => rwa [lexeme_symbol hword hdigit hquote] at h

/-- The end of the text and the marks that end statements and blocks are spelled by one character if
at all. -/
theorem lexeme_ofChar {c : Char} {cs : List Char} {kind : TokenKind}
    (hkind : kind = .endOfInput ∨ kind = .semicolon ∨ kind = .braceClose)
    (h : (lexeme c cs).1 = kind) : TokenKind.ofChar c = kind := by
  have hsymbol : (symbol c cs).1 = kind := by
    rcases hkind with rfl | rfl | rfl <;>
      exact lexeme_kind (by decide) (by simp) (by simp) (by simp) (by simp) (by simp) h
  refine symbol_kind (fun d hpair => ?_) hsymbol
  unfold TokenKind.ofPair? at hpair
  split at hpair <;> cases hpair <;> simp at hkind

/-- A token is not the end of the text. -/
theorem lexeme_ne_end (c : Char) (cs : List Char) : (lexeme c cs).1 ≠ .endOfInput := by
  intro h
  have hchar := lexeme_ofChar (.inl rfl) h
  unfold TokenKind.ofChar at hchar
  split at hchar <;> cases hchar

/-- The token of a closing brace is a closing brace. -/
theorem lexeme_brace {c : Char} {cs : List Char} (h : (lexeme c cs).1 = .braceClose) : c = '}' := by
  have hchar := lexeme_ofChar (.inr (.inr rfl)) h
  unfold TokenKind.ofChar at hchar
  split at hchar <;> simp_all

/-- Behind the blanks and comments that a text starts with there is nothing, or a token. -/
theorem trivia_cases (cs : List Char) : (∃ read, trivia false [] cs = ⟨read, []⟩) ∨
    ∃ read c more, trivia false [] cs = ⟨read, c :: more⟩ := by
  obtain ⟨read, rest⟩ := trivia false [] cs
  cases rest with
  | nil => exact .inl ⟨read, rfl⟩
  | cons c more => exact .inr ⟨read, c, more, rfl⟩

theorem first_of_trivia {cs read more : List Char} {c : Char} (offset : Nat)
    (h : trivia false [] cs = ⟨read, c :: more⟩) :
    first offset cs = ⟨read, ⟨(lexeme c more).1, ⟨offset + Text.byteLength read,
      offset + Text.byteLength read + Text.byteLength (lexeme c more).2.read⟩,
      (lexeme c more).2.read⟩, (lexeme c more).2.rest⟩ := by
  simp [first, h]

theorem first_of_trivia_nil {cs read : List Char} (offset : Nat)
    (h : trivia false [] cs = ⟨read, []⟩) :
    first offset cs
      = ⟨read, ⟨.endOfInput, .point (offset + Text.byteLength read), []⟩, []⟩ := by
  simp [first, h]

/-- A token stays the same if the text behind it is changed past a closing brace, or anywhere if it
is a closing brace. -/
theorem first_swap (offset : Nat) (cs : List Char) {rest : List Char}
    (h : (first offset cs).token.kind = .braceClose ∨ SameToBrace (first offset cs).rest rest) :
    ∃ cs', first offset cs' = { first offset cs with rest := rest } ∧ SameToBrace cs cs' := by
  obtain ⟨read, htrivia⟩ | ⟨read, c, more, htrivia⟩ := trivia_cases cs
  · rw [first_of_trivia_nil offset htrivia] at h ⊢
    have hrest : rest = [] := h.resolve_left (by simp)
    exact ⟨cs, by rw [hrest, first_of_trivia_nil offset htrivia], .refl cs⟩
  · rw [first_of_trivia offset htrivia] at h ⊢
    obtain ⟨more', hmore', hsame⟩ := lexeme_swap c more (h.imp_left lexeme_brace)
    have hbehind : SameToBrace (trivia false [] cs).rest (c :: more') := by
      rw [htrivia]
      exact .cons hsame
    obtain ⟨cs', hcs', hwhole⟩ := trivia_swap false [] cs hbehind
    rw [htrivia] at hcs'
    exact ⟨cs', by rw [first_of_trivia offset hcs', hmore'], hwhole⟩

/-- A text is determined by its first token and what is around it. -/
theorem first_injective {offset : Nat} {cs ds : List Char} (h : first offset cs = first offset ds) :
    cs = ds := by
  rw [← first_append offset cs, ← first_append offset ds, h]

/-! ## Texts that can be told apart behind a brace only -/

/-- `Ahead offset cs ds`: the texts start with the same tokens, up to a closing brace behind which
they may differ.  Spans count from `offset`. -/
inductive Ahead : Nat → List Char → List Char → Prop where
  | refl (offset : Nat) (cs : List Char) : Ahead offset cs cs
  | brace {offset : Nat} {cs ds rest : List Char}
      (hbrace : (first offset cs).token.kind = .braceClose)
      (hfirst : first offset ds = { first offset cs with rest := rest }) : Ahead offset cs ds
  | token {offset : Nat} {cs ds rest : List Char}
      (hfirst : first offset ds = { first offset cs with rest := rest })
      (hrest : Ahead (first offset cs).token.span.stop (first offset cs).rest rest) :
      Ahead offset cs ds

namespace Ahead

variable {offset : Nat} {cs ds rest : List Char}

/-- The next token is the same, and so is what is skipped before it. -/
theorem first_eq (h : Ahead offset cs ds) :
    ∃ rest, first offset ds = { first offset cs with rest := rest } := by
  cases h with
  | refl => exact ⟨_, rfl⟩
  | brace _ hfirst => exact ⟨_, hfirst⟩
  | token hfirst _ => exact ⟨_, hfirst⟩

theorem sameToBrace (h : Ahead offset cs ds) : SameToBrace cs ds := by
  induction h with
  | refl offset cs => exact .refl cs
  | brace hbrace hfirst =>
      obtain ⟨cs', hcs', hsame⟩ := first_swap _ _ (.inl hbrace)
      exact first_injective (hcs'.trans hfirst.symm) ▸ hsame
  | token hfirst _ ih =>
      obtain ⟨cs', hcs', hsame⟩ := first_swap _ _ (.inr ih)
      exact first_injective (hcs'.trans hfirst.symm) ▸ hsame

/-- What is ahead of a text behind its first token can be put behind that token. -/
theorem before_token
    (h : Ahead (first offset cs).token.span.stop (first offset cs).rest rest) :
    ∃ ds, Ahead offset cs ds ∧ first offset ds = { first offset cs with rest := rest } := by
  obtain ⟨ds, hds, _⟩ := first_swap offset cs (.inr h.sameToBrace)
  exact ⟨ds, .token hds h, hds⟩

/-- Anything can be put behind a closing brace. -/
theorem before_brace (hbrace : (first offset cs).token.kind = .braceClose) (rest : List Char) :
    ∃ ds, Ahead offset cs ds ∧ first offset ds = { first offset cs with rest := rest } := by
  obtain ⟨ds, hds, _⟩ := first_swap offset cs (.inl hbrace)
  exact ⟨ds, .brace hbrace hds, hds⟩

end Ahead

/-! ## All tokens of a text -/

theorem suffix_path (read cs : List Char) : read <:+ (path read cs).read := by
  fun_induction path read cs with
  | case1 read => exact List.suffix_refl read
  | case2 read c cs _ ih => exact (List.suffix_append [c, ':', ':'] read).trans ih
  | case3 read c cs _ => exact List.suffix_refl read
  | case4 read c cs _ _ ih => exact (List.suffix_cons c read).trans ih
  | case5 read c cs _ _ => exact List.suffix_refl read

theorem suffix_inside (read cs : List Char) : read <:+ (inside read cs).read := by
  fun_induction inside read cs with
  | case1 read => exact List.suffix_refl read
  | case2 read => exact List.suffix_refl read
  | case3 read c cs _ => exact List.suffix_refl read
  | case4 read c cs _ ih => exact (List.suffix_append [c, '\\'] read).trans ih
  | case5 read c cs _ _ _ => exact List.suffix_refl read
  | case6 read c cs _ _ _ ih => exact (List.suffix_cons c read).trans ih

theorem suffix_digits (value : Option Nat) (read cs : List Char) :
    read <:+ (digits value read cs).2.read := by
  fun_induction digits value read cs with
  | case1 value read => exact List.suffix_refl read
  | case2 value read c cs _ ih => exact (List.suffix_cons c read).trans ih
  | case3 value read c cs _ => exact List.suffix_refl read

/-- A token has at least its first character. -/
theorem lexeme_read_ne_nil (c : Char) (cs : List Char) : (lexeme c cs).2.read ≠ [] := by
  have hne : ∀ {read : List Char}, [c] <:+ read → read ≠ [] := by
    rintro _ hsuffix rfl
    simp at hsuffix
  cases c, cs using lexeme_cases with
  | word c cs hword =>
      rw [lexeme_word hword]
      exact hne (suffix_path [c] cs)
  | number c cs hword hdigit =>
      rw [lexeme_number hword hdigit]
      exact hne (suffix_digits _ [c] cs)
  | closed cs tail htail =>
      rw [lexeme_closed htail]
      exact List.cons_ne_nil _ _
  | unclosed cs hclosed =>
      rw [lexeme_unclosed hclosed]
      exact hne (suffix_inside ['"'] cs)
  | symbol c cs hword hdigit hquote =>
      rw [lexeme_symbol hword hdigit hquote]
      fun_cases symbol c cs <;> simp_all

/-- Only the end of a text is empty. -/
theorem first_lexeme_ne_nil {offset : Nat} {cs : List Char}
    (h : (first offset cs).token.kind ≠ .endOfInput) : (first offset cs).token.lexeme ≠ [] := by
  obtain ⟨read, htrivia⟩ | ⟨read, c, more, htrivia⟩ := trivia_cases cs
  · rw [first_of_trivia_nil offset htrivia] at h
    exact absurd rfl h
  · rw [first_of_trivia offset htrivia]
    exact lexeme_read_ne_nil c more

theorem tokens_cons {offset : Nat} {cs : List Char}
    (h : (first offset cs).token.kind ≠ .endOfInput) :
    tokens offset cs = (first offset cs).token ::
      tokens (first offset cs).token.span.stop (first offset cs).rest := by
  rw [tokens, dif_neg (first_lexeme_ne_nil h)]

end TwoPhase.Scan
