import Mathlib.Computability.Language
import TwoPhase.Proofs.Reads

/-!
# The patterns of tokens

The tokens of the language are given by patterns, one regular language for each kind of token and
for what is skipped between them.  Scanning does not use them: it reads characters one by one.  Here
it is shown that what it reads is the longest text that any pattern matches, and a single character
where none does (`munch_lexeme`).

Each loop of the scanner reads the longest text of the part of a pattern that it stands for: a run
of word characters with paths in it (`path_longest`), the inside of a string (`inside_longest`) and
a digit run (`digits_longest`).
-/

namespace TwoPhase.Scan

open scoped Computability

/-! ## The patterns -/

/-- The texts of one character of a class. -/
def one (p : Char → Bool) : Language Char := fun text => ∃ c, p c = true ∧ text = [c]

def blanks : Language Char := one isBlank * (one isBlank)∗

/-- A comment, up to where its line ends. -/
def comment : Language Char := {['/', '/']} * (one (· != '\n'))∗

/-- Digits with any number of underscores behind the first. -/
def number : Language Char := one Char.isDigit * (one isNumberChar)∗

/-- The characters of a string that stand for themselves. -/
def isPlain (c : Char) : Bool := !(c == '"' || c == '\\' || c == '\n' || c == '\r')

/-- What is between the quotes of a string. -/
def stringBody : Language Char := (one isPlain + one (· == '\\') * one (· != '\n'))∗

/-- What may follow the first character of a word: the rest of it, and more words behind `::`. -/
def pathTail : Language Char :=
  (one isWordChar)∗ * ({[':', ':']} * (one isWordStart * (one isWordChar)∗))∗

/-- The delimiters and operators, by how they are spelled. -/
def symbols : List (List Char × TokenKind) := [
  (['('], .parenOpen),
  ([')'], .parenClose),
  (['\x7b'], .braceOpen),
  (['\x7d'], .braceClose),
  (['['], .bracketOpen),
  ([']'], .bracketClose),
  ([','], .comma),
  ([';'], .semicolon),
  (['='], .assign),
  (['=', '='], .equal),
  (['!', '='], .notEqual),
  (['<'], .less),
  (['<', '='], .lessEqual),
  (['>'], .greater),
  (['>', '='], .greaterEqual),
  (['+'], .plus),
  (['-'], .minus),
  (['*'], .star),
  (['/'], .slash),
  (['%'], .percent),
  (['!'], .bang),
  (['&', '&'], .andAnd),
  (['|', '|'], .orOr)]

/-- The tokens with a single spelling. -/
def spellings : List (List Char × TokenKind) := TokenKind.keywords ++ symbols

/-- The value of a digit run, which the underscores do not count for. -/
def runValue (text : List Char) : Nat := Nat.ofDigitChars 10 (text.filter (· != '_')) 0

/-- `Matches text made`: a pattern matches the text, and makes of it a token of the kind `made`, or
no token where the text is skipped. -/
inductive Matches : List Char → Option TokenKind → Prop where
  | blanks {text : List Char} (h : text ∈ blanks) : Matches text none
  | comment {text : List Char} (h : text ∈ comment) : Matches text none
  | spelled {text : List Char} {kind : TokenKind} (h : (text, kind) ∈ spellings) :
      Matches text (some kind)
  | number {text : List Char} (h : text ∈ number) : Matches text (some (numberKind (runValue text)))
  | string {body : List Char} (h : body ∈ stringBody) :
      Matches ('"' :: (body ++ ['"'])) (some (.str (Text.Escape.decode body)))
  | unterminated {body : List Char} (h : body ∈ stringBody) :
      Matches ('"' :: body) (some (.bad .unterminatedString))
  | word {text : List Char} (h : text ∈ one isWordStart * pathTail) :
      Matches text (some (.ident (String.ofList text)))

/-- No pattern matches more of a text than the part that is in front of `rest`. -/
def Longest (text rest : List Char) : Prop :=
  ∀ longer made, longer <+: text ++ rest → Matches longer made → longer.length ≤ text.length

/-- `Munch kind text rest`: in front of `rest`, the longest match of the patterns makes a token of
the text, or none matches and a single character is taken for an error.  Where a spelling and a word
match alike, the spelling is taken, but not in front of a colon. -/
inductive Munch : TokenKind → List Char → List Char → Prop where
  | longest {kind : TokenKind} {text rest : List Char} (hmatch : Matches text (some kind))
      (hlongest : Longest text rest)
      (hspelled : ∀ other, (text, other) ∈ spellings → rest.head? ≠ some ':' → kind = other) :
      Munch kind text rest
  | invalid {c : Char} {rest : List Char}
      (hnone : ∀ piece made, piece <+: c :: rest → ¬Matches piece made) :
      Munch (.bad .invalidCharacter) [c] rest

variable {c d : Char} {cs text body rest : List Char} {kind : TokenKind} {made : Option TokenKind}

/-! ## Texts of a class -/

theorem mem_one_mul {p : Char → Bool} {l : Language Char} :
    text ∈ one p * l ↔ ∃ c more, p c = true ∧ more ∈ l ∧ text = c :: more := by
  rw [Language.mem_mul]
  constructor
  · rintro ⟨_, ⟨c, hc, rfl⟩, more, hmore, rfl⟩
    exact ⟨c, more, hc, hmore, rfl⟩
  · rintro ⟨c, more, hc, hmore, rfl⟩
    exact ⟨[c], ⟨c, hc, rfl⟩, more, hmore, rfl⟩

theorem cons_mem_one_mul {p : Char → Bool} {l : Language Char} :
    c :: cs ∈ one p * l ↔ p c = true ∧ cs ∈ l := by
  rw [mem_one_mul]
  constructor
  · rintro ⟨d, more, hd, hmore, heq⟩
    cases heq
    exact ⟨hd, hmore⟩
  · rintro ⟨hc, hcs⟩
    exact ⟨c, cs, hc, hcs, rfl⟩

theorem cons_mem_one_kstar {p : Char → Bool} :
    c :: cs ∈ (one p)∗ ↔ p c = true ∧ cs ∈ (one p)∗ := by
  conv_lhs => rw [← Language.one_add_self_mul_kstar_eq_kstar, Language.mem_add, Language.mem_one]
  rw [cons_mem_one_mul]
  simp

theorem mem_one_kstar {p : Char → Bool} : text ∈ (one p)∗ ↔ ∀ c ∈ text, p c = true := by
  induction text with
  | nil => simp [Language.nil_mem_kstar]
  | cons c cs ih => simp [cons_mem_one_kstar, ih]

/-! ## Digit runs -/

theorem digits_eq (value : Option Nat) (read cs : List Char) :
    digits value read cs = ((cs.takeWhile isNumberChar).foldl withDigit value,
      ⟨(cs.takeWhile isNumberChar).reverse ++ read, cs.dropWhile isNumberChar⟩) := by
  induction cs generalizing value read with
  | nil => rfl
  | cons c cs ih =>
      by_cases hc : isNumberChar c = true
      · rw [digits, if_pos hc, ih]
        simp [hc]
      · simp [digits, hc]

theorem foldl_withDigit_filter (cs : List Char) (value : Option Nat) :
    cs.foldl withDigit value = (cs.filter (· != '_')).foldl withDigit value := by
  induction cs generalizing value with
  | nil => rfl
  | cons c cs ih =>
      rw [List.foldl_cons, ih]
      by_cases hc : c = '_'
      · simp [hc, withDigit]
      · simp [hc]

/-- The value that the scanner works out digit by digit is that of the run, if it fits. -/
theorem foldl_withDigit_run (hrun : ∀ c ∈ text, isNumberChar c = true) :
    text.foldl withDigit (some 0) = fits (runValue text) := by
  have hdigits : ∀ c ∈ text.filter (· != '_'), c.isDigit = true := by
    intro c hc
    obtain ⟨hmem, hplain⟩ := List.mem_filter.1 hc
    have hnumber := hrun c hmem
    simpa [isNumberChar, bne_iff_ne.1 hplain] using hnumber
  rw [foldl_withDigit_filter, show (some 0 : Option Nat) = fits 0 from rfl,
    foldl_withDigit hdigits, runValue]

/-! ## Words -/

/-- A path goes on with another character of its word, or with another word behind `::`. -/
theorem pathTail_eq :
    pathTail = 1 + one isWordChar * pathTail + {[':', ':']} * (one isWordStart * pathTail) := by
  have hword := Language.one_add_self_mul_kstar_eq_kstar (one isWordChar)
  have hmore := Language.one_add_self_mul_kstar_eq_kstar
    ({[':', ':']} * (one isWordStart * (one isWordChar)∗) : Language Char)
  unfold pathTail
  generalize (one isWordChar)∗ = words at *
  generalize ({[':', ':']} * (one isWordStart * words) : Language Char)∗ = more at *
  calc words * more = (1 + one isWordChar * words) * more := by rw [hword]
    _ = (1 + {[':', ':']} * (one isWordStart * words) * more)
        + one isWordChar * (words * more) := by
        rw [hmore, add_mul, one_mul, mul_assoc]
    _ = 1 + one isWordChar * (words * more)
          + {[':', ':']} * (one isWordStart * (words * more)) := by
        simp only [mul_assoc]
        rw [add_right_comm]

theorem mem_pathTail : text ∈ pathTail ↔ text = [] ∨
    (∃ c more, isWordChar c = true ∧ more ∈ pathTail ∧ text = c :: more) ∨
    ∃ c more, isWordStart c = true ∧ more ∈ pathTail ∧ text = ':' :: ':' :: c :: more := by
  conv_lhs => rw [pathTail_eq]
  rw [Language.mem_add, Language.mem_add, Language.mem_one, mem_one_mul, Language.mem_mul, or_assoc]
  refine or_congr_right (or_congr_right ⟨?_, ?_⟩)
  · rintro ⟨_, rfl, _, hname, rfl⟩
    obtain ⟨c, more, hc, hmore, rfl⟩ := mem_one_mul.1 hname
    exact ⟨c, more, hc, hmore, rfl⟩
  · rintro ⟨c, more, hc, hmore, rfl⟩
    exact ⟨_, rfl, c :: more, cons_mem_one_mul.2 ⟨hc, hmore⟩, rfl⟩

theorem pathTail_induction {P : List Char → Prop} (nil : P [])
    (char : ∀ c more, isWordChar c = true → P more → P (c :: more))
    (word : ∀ c more, isWordStart c = true → P more → P (':' :: ':' :: c :: more))
    (htext : text ∈ pathTail) : P text := by
  induction hlength : text.length using Nat.strongRecOn generalizing text with
  | ind n ih =>
      rcases mem_pathTail.1 htext with rfl | ⟨c, more, hc, hmore, rfl⟩ | ⟨c, more, hc, hmore, rfl⟩
      · exact nil
      · exact char c more hc (ih _ (by simp [← hlength]) hmore rfl)
      · exact word c more hc (ih _ (by simp only [← hlength, List.length_cons]; omega) hmore rfl)

/-- All that the pattern has is read. -/
theorem path_append (htext : text ∈ pathTail) (read cs : List Char) :
    path read (text ++ cs) = path (text.reverse ++ read) cs := by
  refine pathTail_induction
    (P := fun text => ∀ read, path read (text ++ cs) = path (text.reverse ++ read) cs)
    ?nil ?char ?word htext read
  case nil => exact fun _ => rfl
  case char =>
    intro c more hc ih read
    have hcolon : c ≠ ':' := by
      rintro rfl
      exact absurd hc (by decide)
    rw [List.cons_append, path_cons read fun _ _ heq => absurd heq hcolon, if_pos hc, ih]
    simp
  case word =>
    intro c more hc ih read
    simpa [path, hc] using ih (c :: ':' :: ':' :: read)

/-- Only what the pattern has is read. -/
theorem path_reads (read cs : List Char) :
    ∃ tail ∈ pathTail, (path read cs).read = tail.reverse ++ read := by
  fun_induction path read cs with
  | case1 read => exact ⟨[], mem_pathTail.2 (.inl rfl), rfl⟩
  | case2 read c cs hstart ih =>
      obtain ⟨tail, htail, hread⟩ := ih
      exact ⟨':' :: ':' :: c :: tail, mem_pathTail.2 (.inr (.inr ⟨c, tail, hstart, htail, rfl⟩)),
        by simp [hread]⟩
  | case3 read c cs hstart => exact ⟨[], mem_pathTail.2 (.inl rfl), rfl⟩
  | case4 read c cs hcolons hword ih =>
      obtain ⟨tail, htail, hread⟩ := ih
      exact ⟨c :: tail, mem_pathTail.2 (.inr (.inl ⟨c, tail, hword, htail, rfl⟩)), by simp [hread]⟩
  | case5 read c cs hcolons hword => exact ⟨[], mem_pathTail.2 (.inl rfl), rfl⟩

/-- What is read of a path is the longest match of its pattern. -/
theorem path_longest (read : List Char) (htext : text ∈ pathTail) (hbegins : text <+: cs) :
    text.length + read.length ≤ (path read cs).read.length := by
  obtain ⟨rest, rfl⟩ := hbegins
  rw [path_append htext]
  simpa using (suffix_path (text.reverse ++ read) rest).length_le

/-! ## Strings -/

theorem mem_stringBody : text ∈ stringBody ↔ text = [] ∨
    (∃ c more, isPlain c = true ∧ more ∈ stringBody ∧ text = c :: more) ∨
    ∃ c more, c ≠ '\n' ∧ more ∈ stringBody ∧ text = '\\' :: c :: more := by
  conv_lhs => rw [stringBody, ← Language.one_add_self_mul_kstar_eq_kstar, ← stringBody]
  rw [Language.mem_add, Language.mem_one, add_mul, Language.mem_add, mem_one_mul, mul_assoc,
    mem_one_mul]
  refine or_congr_right (or_congr_right ⟨?_, ?_⟩)
  · rintro ⟨_, _, hslash, hpair, rfl⟩
    obtain ⟨c, more, hc, hmore, rfl⟩ := mem_one_mul.1 hpair
    rw [beq_iff_eq.1 hslash]
    exact ⟨c, more, bne_iff_ne.1 hc, hmore, rfl⟩
  · rintro ⟨c, more, hc, hmore, rfl⟩
    exact ⟨'\\', c :: more, rfl, cons_mem_one_mul.2 ⟨bne_iff_ne.2 hc, hmore⟩, rfl⟩

theorem stringBody_induction {P : List Char → Prop} (nil : P [])
    (plain : ∀ c more, isPlain c = true → P more → P (c :: more))
    (escape : ∀ c more, c ≠ '\n' → P more → P ('\\' :: c :: more))
    (htext : text ∈ stringBody) : P text := by
  induction hlength : text.length using Nat.strongRecOn generalizing text with
  | ind n ih =>
      rcases mem_stringBody.1 htext with rfl | ⟨c, more, hc, hmore, rfl⟩ | ⟨c, more, hc, hmore, rfl⟩
      · exact nil
      · exact plain c more hc (ih _ (by simp only [← hlength, List.length_cons]; omega) hmore rfl)
      · exact escape c more hc (ih _ (by simp only [← hlength, List.length_cons]; omega) hmore rfl)

/-- All that the pattern has is read. -/
theorem inside_append (hbody : body ∈ stringBody) (read cs : List Char) :
    inside read (body ++ cs) = inside (body.reverse ++ read) cs := by
  refine stringBody_induction
    (P := fun body => ∀ read, inside read (body ++ cs) = inside (body.reverse ++ read) cs)
    ?nil ?plain ?escape hbody read
  case nil => exact fun _ => rfl
  case plain =>
    intro c more hc ih read
    have hplain : ¬(c == '"' || c == '\n' || c == '\r') = true ∧ c ≠ '\\' := by
      simp only [isPlain, Bool.not_eq_true', Bool.or_eq_false_iff, beq_eq_false_iff_ne] at hc
      simp [hc]
    rw [List.cons_append, inside_cons read _ hplain.2, if_neg hplain.1, ih]
    simp
  case escape =>
    intro c more hc ih read
    simpa [inside, hc] using ih (c :: '\\' :: read)

/-- Only what the pattern has is read. -/
theorem inside_reads (read cs : List Char) :
    ∃ body ∈ stringBody, (inside read cs).read = body.reverse ++ read := by
  fun_induction inside read cs with
  | case1 read => exact ⟨[], mem_stringBody.2 (.inl rfl), rfl⟩
  | case2 read => exact ⟨[], mem_stringBody.2 (.inl rfl), rfl⟩
  | case3 read c cs hline => exact ⟨[], mem_stringBody.2 (.inl rfl), rfl⟩
  | case4 read c cs hline ih =>
      obtain ⟨body, hbody, hread⟩ := ih
      have hc : c ≠ '\n' := by simpa using hline
      exact ⟨'\\' :: c :: body, mem_stringBody.2 (.inr (.inr ⟨c, body, hc, hbody, rfl⟩)),
        by simp [hread]⟩
  | case5 read c cs hlone hpair hend => exact ⟨[], mem_stringBody.2 (.inl rfl), rfl⟩
  | case6 read c cs hlone hpair hend ih =>
      obtain ⟨body, hbody, hread⟩ := ih
      have hescape : c ≠ '\\' := by
        rintro rfl
        cases cs with
        | nil => exact hlone rfl rfl
        | cons d ds => exact hpair d ds rfl rfl
      have hc : isPlain c = true := by
        simp only [Bool.or_eq_true, beq_iff_eq, not_or] at hend
        simp [isPlain, hescape, hend]
      exact ⟨c :: body, mem_stringBody.2 (.inr (.inl ⟨c, body, hc, hbody, rfl⟩)), by simp [hread]⟩

/-- What is read of the inside of a string is the longest match of its pattern. -/
theorem inside_longest (read : List Char) (hbody : body ∈ stringBody) (hbegins : body <+: cs) :
    body.length + read.length ≤ (inside read cs).read.length := by
  obtain ⟨rest, rfl⟩ := hbegins
  rw [inside_append hbody]
  simpa using (suffix_inside (body.reverse ++ read) rest).length_le

/-- A string is read up to its closing quote, which is the first that no backslash is in front
of. -/
theorem inside_closed (hbody : body ∈ stringBody) (read rest : List Char) :
    inside read (body ++ '"' :: rest) = ⟨body.reverse ++ read, '"' :: rest⟩ := by
  rw [inside_append hbody, inside_cons _ _ (by decide), if_pos (by decide)]

/-! ## Spellings -/

theorem mem_pathTail_of_word (htext : ∀ c ∈ text, isWordChar c = true) : text ∈ pathTail := by
  induction text with
  | nil => exact mem_pathTail.2 (.inl rfl)
  | cons c text ih =>
      have hmore := ih fun d hd => htext d (List.mem_cons_of_mem c hd)
      exact mem_pathTail.2 (.inr (.inl ⟨c, text, htext c List.mem_cons_self, hmore, rfl⟩))

/-- A keyword is a word. -/
theorem keyword_word (h : (text, kind) ∈ TokenKind.keywords) :
    ∃ c more, text = c :: more ∧ isWordStart c = true ∧ more ∈ pathTail := by
  have hall : ∀ entry ∈ TokenKind.keywords,
      (entry.1.head?.any isWordStart && entry.1.tail.all isWordChar) = true := by decide
  obtain ⟨hhead, hmore⟩ := Bool.and_eq_true_iff.1 (hall _ h)
  obtain ⟨c, hc, hstart⟩ := (Option.any_eq_true ..).1 hhead
  obtain ⟨more, rfl⟩ := List.head?_eq_some_iff.1 hc
  exact ⟨c, more, rfl, hstart, mem_pathTail_of_word (List.all_eq_true.1 hmore)⟩

theorem lookup_keyword (h : (text, kind) ∈ TokenKind.keywords) : TokenKind.ofWord text = kind := by
  have hall : ∀ entry ∈ TokenKind.keywords, TokenKind.ofWord entry.1 = entry.2 := by decide
  exact hall _ h

/-- What one or two characters are as a symbol. -/
def symbolKind? : List Char → Option TokenKind
  | [c] => some (TokenKind.ofChar c)
  | [c, d] => TokenKind.ofPair? c d
  | _ => none

/-- A symbol is read by its first one or two characters. -/
theorem symbol_cases (h : (text, kind) ∈ symbols) :
    (∃ c, text = [c] ∧ TokenKind.ofChar c = kind ∧ kind ≠ .bad .invalidCharacter) ∨
      ∃ c d, text = [c, d] ∧ TokenKind.ofPair? c d = some kind := by
  have hall : ∀ entry ∈ symbols, symbolKind? entry.1 = some entry.2 ∧
      entry.2 ≠ .bad .invalidCharacter := by decide
  obtain ⟨hkind, hgood⟩ := hall _ h
  simp only at hkind hgood
  unfold symbolKind? at hkind
  split at hkind
  · exact .inl ⟨_, rfl, Option.some.inj hkind, hgood⟩
  · exact .inr ⟨_, _, rfl, hkind⟩
  · cases hkind

theorem mem_symbols_of_pair (h : TokenKind.ofPair? c d = some kind) : ([c, d], kind) ∈ symbols := by
  unfold TokenKind.ofPair? at h
  split at h <;> cases h <;> simp [symbols]

theorem mem_symbols_of_char (h : TokenKind.ofChar c ≠ .bad .invalidCharacter) :
    ([c], TokenKind.ofChar c) ∈ symbols := by
  unfold TokenKind.ofChar at h ⊢
  split at h <;> simp_all [symbols]

/-- A symbol starts neither a word, a number nor a string, and is not blank. -/
theorem symbol_head (h : (c :: cs, kind) ∈ symbols) :
    isWordStart c = false ∧ c.isDigit = false ∧ c ≠ '"' ∧ isBlank c = false := by
  have hall : ∀ entry ∈ symbols, (entry.1.head?.all fun c =>
      !isWordStart c && !c.isDigit && c != '"' && !isBlank c) = true := by decide
  simpa [and_assoc] using hall _ h

/-! ## Matches by their first character -/

/-- What a pattern matches, by what it starts with. -/
inductive Headed : List Char → Prop where
  | blank {c : Char} {more : List Char} (hblank : isBlank c = true) : Headed (c :: more)
  | comment {more : List Char} : Headed ('/' :: '/' :: more)
  | word {c : Char} {more : List Char} (hword : isWordStart c = true) (hmore : more ∈ pathTail) :
      Headed (c :: more)
  | number {c : Char} {more : List Char} (hdigit : c.isDigit = true)
      (hmore : more ∈ (one isNumberChar)∗) : Headed (c :: more)
  | string {more : List Char}
      (hmore : more ∈ stringBody ∨ ∃ body ∈ stringBody, more = body ++ ['"']) :
      Headed ('"' :: more)
  | symbol {text : List Char} {kind : TokenKind} (hsymbol : (text, kind) ∈ symbols) : Headed text

namespace Matches

theorem headed (h : Matches text made) : Headed text := by
  cases h with
  | blanks h =>
      obtain ⟨c, more, hc, _, rfl⟩ := mem_one_mul.1 h
      exact .blank hc
  | comment h =>
      obtain ⟨_, rfl, more, _, rfl⟩ := Language.mem_mul.1 h
      exact .comment
  | spelled h =>
      rcases List.mem_append.1 h with hkeyword | hsymbol
      · obtain ⟨c, more, rfl, hc, hmore⟩ := keyword_word hkeyword
        exact .word hc hmore
      · exact .symbol hsymbol
  | number h =>
      obtain ⟨c, more, hc, hmore, rfl⟩ := mem_one_mul.1 h
      exact .number hc hmore
  | @string body h => exact .string (.inr ⟨body, h, rfl⟩)
  | unterminated h => exact .string (.inl h)
  | word h =>
      obtain ⟨c, more, hc, hmore, rfl⟩ := mem_one_mul.1 h
      exact .word hc hmore

/-- No pattern matches the empty text. -/
theorem exists_cons (h : Matches text made) : ∃ c more, text = c :: more := by
  cases h.headed with
  | symbol hsymbol =>
      obtain ⟨c, rfl, _⟩ | ⟨c, d, rfl, _⟩ := symbol_cases hsymbol
      · exact ⟨c, [], rfl⟩
      · exact ⟨c, [d], rfl⟩
  | _ => exact ⟨_, _, rfl⟩

end Matches

theorem isBlank_cases (h : isBlank c = true) : c = ' ' ∨ c = '\t' ∨ c = '\r' ∨ c = '\n' := by
  simpa [isBlank, or_assoc] using h

theorem isBlank_apart (h : isBlank c = true) :
    isWordStart c = false ∧ c.isDigit = false ∧ c ≠ '"' := by
  rcases isBlank_cases h with rfl | rfl | rfl | rfl <;> decide

namespace Matches

/-- What starts a word starts nothing else. -/
theorem of_word (hword : isWordStart c = true) (h : Matches (c :: cs) made) : cs ∈ pathTail := by
  cases h.headed with
  | blank hblank => exact absurd hword (by simp [(isBlank_apart hblank).1])
  | comment => exact absurd hword (by decide)
  | word _ hmore => exact hmore
  | number hdigit => exact absurd hword (by simp [(digit_apart hdigit).2.2])
  | string => exact absurd hword (by decide)
  | symbol hsymbol => exact absurd hword (by simp [(symbol_head hsymbol).1])

/-- What starts a number starts nothing else. -/
theorem of_digit (hdigit : c.isDigit = true) (h : Matches (c :: cs) made) :
    cs ∈ (one isNumberChar)∗ := by
  cases h.headed with
  | blank hblank => exact absurd hdigit (by simp [(isBlank_apart hblank).2.1])
  | comment => exact absurd hdigit (by decide)
  | word hword => exact absurd hword (by simp [(digit_apart hdigit).2.2])
  | number _ hmore => exact hmore
  | string => exact absurd hdigit (by decide)
  | symbol hsymbol => exact absurd hdigit (by simp [(symbol_head hsymbol).2.1])

/-- What starts a string starts nothing else. -/
theorem of_quote (h : Matches ('"' :: cs) made) :
    cs ∈ stringBody ∨ ∃ body ∈ stringBody, cs = body ++ ['"'] := by
  cases h.headed with
  | blank hblank => exact absurd hblank (by decide)
  | word hword => exact absurd hword (by decide)
  | number hdigit => exact absurd hdigit (by decide)
  | string hmore => exact hmore
  | symbol hsymbol => exact absurd rfl (symbol_head hsymbol).2.2.1

/-- Where neither a word, a number nor a string starts, and nothing is skipped, only symbols
match. -/
theorem of_other (hblank : ¬isBlank c = true)
    (hcomment : ¬(c == '/' && rest.head? == some '/') = true) (hword : ¬isWordStart c = true)
    (hdigit : ¬c.isDigit = true) (hquote : c ≠ '"') (hbegins : text <+: c :: rest)
    (h : Matches text made) : ∃ kind, (text, kind) ∈ symbols := by
  obtain ⟨after, hafter⟩ := hbegins
  cases h.headed with
  | symbol hsymbol => exact ⟨_, hsymbol⟩
  | blank hblank' =>
      cases hafter
      exact absurd hblank' hblank
  | comment =>
      cases hafter
      exact absurd (by simp) hcomment
  | word hword' =>
      cases hafter
      exact absurd hword' hword
  | number hdigit' =>
      cases hafter
      exact absurd hdigit' hdigit
  | string =>
      cases hafter
      exact absurd rfl hquote

end Matches

/-! ## Longest matches -/

/-- The rest of the text is behind what is read. -/
theorem Split.eq_append {s : Split} {read more : List Char} (hwhole : s.whole = cs)
    (hread : s.read = more.reverse ++ read) : cs = read.reverse ++ more ++ s.rest := by
  rw [← hwhole, Split.whole, hread]
  simp

theorem munch_word (hword : isWordStart c = true) (cs : List Char) :
    Munch (lexeme c cs).1 (lexeme c cs).2.read.reverse (lexeme c cs).2.rest := by
  obtain ⟨tail, htail, hread⟩ := path_reads [c] cs
  have hwhole := Split.eq_append (whole_path [c] cs) hread
  rw [lexeme_word hword]
  generalize hpath : path [c] cs = s at hread hwhole ⊢
  have htext : s.read.reverse = c :: tail := by rw [hread]; simp
  have hcs : cs = tail ++ s.rest := by simpa using hwhole
  dsimp only
  rw [htext]
  refine .longest ?_ ?_ ?_
  · have hident : Matches (c :: tail) (some (.ident (String.ofList (c :: tail)))) :=
      .word (cons_mem_one_mul.2 ⟨hword, htail⟩)
    unfold wordKind
    split
    · exact hident
    · unfold TokenKind.ofWord
      cases hlookup : TokenKind.keywords.lookup (c :: tail) with
      | none => exact hident
      | some kind =>
          obtain ⟨before, after, hkeywords, _⟩ := List.lookup_eq_some_iff.1 hlookup
          exact .spelled (List.mem_append_left _ (by simp [hkeywords]))
  · intro longer made hbegins hmatch
    obtain ⟨d, more, rfl⟩ := hmatch.exists_cons
    obtain ⟨rfl, hmore⟩ := List.cons_prefix_cons.1 hbegins
    have hbehind : more <+: cs := by
      rw [hcs]
      exact hmore
    have hlength := path_longest [d] (hmatch.of_word hword) hbehind
    rw [hpath, hread] at hlength
    simpa using hlength
  · intro other hspelled hcolon
    rcases List.mem_append.1 hspelled with hkeyword | hsymbol
    · rw [wordKind, if_neg (by simpa using hcolon), lookup_keyword hkeyword]
    · exact absurd hword (by simp [(symbol_head hsymbol).1])

theorem munch_number (hword : ¬isWordStart c = true) (hdigit : c.isDigit = true) (cs : List Char) :
    Munch (lexeme c cs).1 (lexeme c cs).2.read.reverse (lexeme c cs).2.rest := by
  have hall : ∀ d ∈ cs.takeWhile isNumberChar, isNumberChar d = true :=
    fun d hd => List.mem_takeWhile_imp hd
  have hnumber : isNumberChar c = true := by simp [isNumberChar, hdigit]
  have hvalue : (c :: cs.takeWhile isNumberChar).foldl withDigit (some 0)
      = fits (runValue (c :: cs.takeWhile isNumberChar)) := by
    refine foldl_withDigit_run fun d hd => ?_
    rcases List.mem_cons.1 hd with rfl | hmem
    · exact hnumber
    · exact hall d hmem
  have hcs : cs = cs.takeWhile isNumberChar ++ cs.dropWhile isNumberChar :=
    List.takeWhile_append_dropWhile.symm
  rw [List.foldl_cons] at hvalue
  rw [lexeme_number hword hdigit, digits_eq, hvalue]
  simp only [List.reverse_append, List.reverse_reverse, List.reverse_cons, List.reverse_nil,
    List.nil_append, List.singleton_append]
  refine .longest (.number (cons_mem_one_mul.2 ⟨hdigit, mem_one_kstar.2 hall⟩)) ?_ ?_
  · intro longer made hbegins hmatch
    obtain ⟨d, more, rfl⟩ := hmatch.exists_cons
    obtain ⟨rfl, hmore⟩ := List.cons_prefix_cons.1 hbegins
    have hrun := mem_one_kstar.1 (hmatch.of_digit hdigit)
    obtain ⟨after, hafter⟩ : more <+: cs := by
      rw [hcs]
      exact hmore
    have htake : more <+: cs.takeWhile isNumberChar := by
      rw [← hafter, List.takeWhile_append_of_pos hrun]
      exact List.prefix_append _ _
    simpa using htake.length_le
  · intro other hspelled _
    rcases List.mem_append.1 hspelled with hkeyword | hsymbol
    · obtain ⟨d, more, heq, hstart, _⟩ := keyword_word hkeyword
      cases heq
      exact absurd hstart hword
    · exact absurd hdigit (by simp [(symbol_head hsymbol).2.1])

/-- No spelling starts with a quote. -/
theorem quote_unspelled (h : ('"' :: cs, kind) ∈ spellings) : False := by
  rcases List.mem_append.1 h with hkeyword | hsymbol
  · obtain ⟨d, more, heq, hstart, _⟩ := keyword_word hkeyword
    cases heq
    exact absurd hstart (by decide)
  · exact (symbol_head hsymbol).2.2.1 rfl

/-- What is read of a string is the inside of one. -/
theorem exists_stringBody (cs : List Char) : ∃ body ∈ stringBody,
    (inside ['"'] cs).read = body.reverse ++ ['"'] ∧ cs = body ++ (inside ['"'] cs).rest := by
  obtain ⟨body, hbody, hread⟩ := inside_reads ['"'] cs
  have hwhole := Split.eq_append (whole_inside ['"'] cs) hread
  exact ⟨body, hbody, hread, by simpa using hwhole⟩

/-- Only a string with its closing quote matches more than what is read up to where the string ends,
and then what ends it is the quote. -/
theorem quote_matches {longer : List Char} (hbegins : longer <+: '"' :: cs)
    (hmatch : Matches longer made) : longer.length ≤ (inside ['"'] cs).read.length ∨
      longer.length = (inside ['"'] cs).read.length + 1 ∧
        (inside ['"'] cs).rest.head? = some '"' := by
  obtain ⟨d, more, rfl⟩ := hmatch.exists_cons
  obtain ⟨rfl, hmore⟩ := List.cons_prefix_cons.1 hbegins
  rcases hmatch.of_quote with hopen | ⟨inner, hinner, rfl⟩
  · exact .inl (inside_longest ['"'] hopen hmore)
  · obtain ⟨after, rfl⟩ := hmore
    rw [List.append_assoc, List.singleton_append, inside_closed hinner]
    exact .inr ⟨by simp, rfl⟩

theorem munch_closed {tail : List Char} (htail : (inside ['"'] cs).rest = '"' :: tail) :
    Munch (lexeme '"' cs).1 (lexeme '"' cs).2.read.reverse (lexeme '"' cs).2.rest := by
  obtain ⟨body, hbody, hread, hcs⟩ := exists_stringBody cs
  rw [lexeme_closed htail, hread]
  simp only [List.reverse_append, List.reverse_reverse, List.reverse_cons, List.reverse_nil,
    List.nil_append, List.cons_append, List.drop_succ_cons, List.drop_zero]
  refine .longest (.string hbody) ?_ fun other h _ => (quote_unspelled h).elim
  intro longer made hbegins hmatch
  have hwhole : '"' :: (body ++ ['"']) ++ tail = '"' :: cs := by
    rw [hcs, htail]
    simp
  rw [hwhole] at hbegins
  have hlength := quote_matches hbegins hmatch
  simp only [hread, List.length_append, List.length_reverse, List.length_cons,
    List.length_nil] at hlength ⊢
  omega

theorem munch_unclosed (hclosed : (inside ['"'] cs).rest.head? ≠ some '"') :
    Munch (lexeme '"' cs).1 (lexeme '"' cs).2.read.reverse (lexeme '"' cs).2.rest := by
  obtain ⟨body, hbody, hread, hcs⟩ := exists_stringBody cs
  rw [lexeme_unclosed hclosed, hread]
  simp only [List.reverse_append, List.reverse_reverse, List.reverse_cons, List.reverse_nil,
    List.nil_append, List.singleton_append]
  refine .longest (.unterminated hbody) ?_ fun other h _ => (quote_unspelled h).elim
  intro longer made hbegins hmatch
  rw [List.cons_append, ← hcs] at hbegins
  -- a string that is closed would have been read as one
  have hlength := (quote_matches hbegins hmatch).resolve_right fun h => hclosed h.2
  simpa [hread] using hlength

theorem munch_symbol (hblank : ¬isBlank c = true)
    (hcomment : ¬(c == '/' && cs.head? == some '/') = true) (hword : ¬isWordStart c = true)
    (hdigit : ¬c.isDigit = true) (hquote : c ≠ '"') :
    Munch (symbol c cs).1 (symbol c cs).2.read.reverse (symbol c cs).2.rest := by
  have hsymbols : ∀ {text made}, text <+: c :: cs → Matches text made →
      ∃ kind, (text, kind) ∈ symbols :=
    fun hbegins h => h.of_other hblank hcomment hword hdigit hquote hbegins
  have hspelled : ∀ {text other}, text.head? = some c → (text, other) ∈ spellings →
      (text, other) ∈ symbols := by
    intro text other hhead h
    obtain ⟨more, rfl⟩ := List.head?_eq_some_iff.1 hhead
    refine (List.mem_append.1 h).resolve_left fun hkeyword => ?_
    obtain ⟨d, more, heq, hstart, _⟩ := keyword_word hkeyword
    cases heq
    exact hword hstart
  -- a character that starts no symbol of two characters
  have hchar : (∀ d ∈ cs.head?, TokenKind.ofPair? c d = none) → Munch (.ofChar c) [c] cs := by
    intro hpair
    have halone : ∀ {text kind}, text <+: c :: cs → (text, kind) ∈ symbols →
        text = [c] ∧ TokenKind.ofChar c = kind ∧ kind ≠ .bad .invalidCharacter := by
      intro text kind hbegins h
      obtain ⟨e, rfl, hkind⟩ | ⟨e, f, rfl, hkind⟩ := symbol_cases h
      · obtain ⟨rfl, _⟩ := List.cons_prefix_cons.1 hbegins
        exact ⟨rfl, hkind⟩
      · obtain ⟨after, hafter⟩ := hbegins
        cases hafter
        exact absurd hkind (by simp [hpair f rfl])
    by_cases hbad : TokenKind.ofChar c = .bad .invalidCharacter
    · rw [hbad]
      refine .invalid fun piece made hbegins hmatch => ?_
      obtain ⟨kind, hkind⟩ := hsymbols hbegins hmatch
      obtain ⟨_, hsame, hne⟩ := halone hbegins hkind
      exact hne (hsame.symm.trans hbad)
    · refine .longest (.spelled (List.mem_append_right _ (mem_symbols_of_char hbad))) ?_ ?_
      · intro longer made hbegins hmatch
        obtain ⟨kind, hkind⟩ := hsymbols hbegins hmatch
        rw [(halone hbegins hkind).1]
      · intro other h _
        exact (halone (List.prefix_append _ _) (hspelled rfl h)).2.1
  fun_cases symbol c cs with
  | case1 => exact hchar (by simp)
  | case2 d ds kind hkind =>
      refine .longest (.spelled (List.mem_append_right _ (mem_symbols_of_pair hkind))) ?_ ?_
      · intro longer made hbegins hmatch
        obtain ⟨other, hother⟩ := hsymbols hbegins hmatch
        obtain ⟨e, rfl, _⟩ | ⟨e, f, rfl, _⟩ := symbol_cases hother <;> simp
      · intro other h _
        obtain ⟨e, heq, _⟩ | ⟨e, f, heq, hsame⟩ := symbol_cases (hspelled rfl h) <;> cases heq
        exact Option.some.inj (hkind.symm.trans hsame)
  | case3 d ds hkind => exact hchar (by simpa using hkind)

/-- Where nothing is skipped, what is read is the longest match of the patterns. -/
theorem munch_lexeme (hblank : ¬isBlank c = true)
    (hcomment : ¬(c == '/' && cs.head? == some '/') = true) :
    Munch (lexeme c cs).1 (lexeme c cs).2.read.reverse (lexeme c cs).2.rest := by
  cases c, cs using lexeme_cases with
  | word c cs hword => exact munch_word hword cs
  | number c cs hword hdigit => exact munch_number hword hdigit cs
  | closed cs tail htail => exact munch_closed htail
  | unclosed cs hclosed => exact munch_unclosed hclosed
  | symbol c cs hword hdigit hquote =>
      rw [lexeme_symbol hword hdigit hquote]
      exact munch_symbol hblank hcomment hword hdigit hquote

end TwoPhase.Scan
