import TwoPhase.Proofs.Marker

/-!
# Reading known text

`Reads cs kinds rest` says which tokens a text starts with, and what follows them.  The text that
deferral splices in is known but for one number, so the kinds of its tokens are known too.
-/

namespace TwoPhase

namespace Scan

/-! ## Numbers -/

/-- A value, as long as it fits an integer literal. -/
def fits (value : Nat) : Option Nat := if value ≤ maxValue then some value else none

/-- The kind of the literal of a number. -/
def numberKind (value : Nat) : TokenKind :=
  match fits value with
  | some value => .int (Int64.ofNat value)
  | none => .bad .integerOutOfRange

theorem numberKind_of_le {value : Nat} (h : value ≤ maxValue) :
    numberKind value = .int (Int64.ofNat value) := by
  rw [numberKind, fits, if_pos h]

theorem withDigit_fits {c : Char} (hdigit : c.isDigit = true) (value : Nat) :
    withDigit (fits value) c = fits (10 * value + (c.toNat - '0'.toNat)) := by
  have hplain : ¬(c == '_') = true := by
    intro h
    rw [beq_iff_eq.1 h] at hdigit
    exact absurd hdigit (by decide)
  unfold withDigit fits
  rw [if_neg hplain]
  by_cases hvalue : value ≤ maxValue
  · rw [if_pos hvalue, Nat.mul_comm 10 value]
    rfl
  · rw [if_neg hvalue, if_neg (by omega)]
    rfl

theorem foldl_withDigit {ds : List Char} (hds : ∀ c ∈ ds, c.isDigit = true) (value : Nat) :
    ds.foldl withDigit (fits value) = fits (Nat.ofDigitChars 10 ds value) := by
  induction ds generalizing value with
  | nil => rw [List.foldl_nil, Nat.ofDigitChars_nil]
  | cons d ds ih =>
      rw [List.foldl_cons, withDigit_fits (hds d List.mem_cons_self), Nat.ofDigitChars_cons]
      exact ih (fun c hc => hds c (List.mem_cons_of_mem _ hc)) _

/-- A run of digits is read up to where it ends. -/
theorem digits_append {ds : List Char} (hds : ∀ c ∈ ds, c.isDigit = true) {c : Char}
    (hc : isNumberChar c = false) (value : Option Nat) (read cs : List Char) :
    digits value read (ds ++ c :: cs)
      = (ds.foldl withDigit value, ⟨ds.reverse ++ read, c :: cs⟩) := by
  induction ds generalizing value read with
  | nil => simp [digits, hc]
  | cons d ds ih =>
      have hd : isNumberChar d = true := by simp [isNumberChar, hds d List.mem_cons_self]
      rw [List.cons_append, digits, if_pos hd, ih fun c hc => hds c (List.mem_cons_of_mem _ hc)]
      simp

/-- A digit starts a number and nothing else. -/
theorem digit_apart {c : Char} (hdigit : c.isDigit = true) :
    isBlank c = false ∧ c ≠ '/' ∧ isWordStart c = false := by
  have hrange : 48 ≤ c.toNat ∧ c.toNat ≤ 57 := by
    simpa [Char.isDigit, UInt32.le_iff_toNat_le] using hdigit
  have hne : ∀ d : Char, d.toNat < 48 ∨ 57 < d.toNat → c ≠ d := by
    rintro d hd rfl
    omega
  refine ⟨?_, hne '/' (by decide), ?_⟩
  · simp [isBlank, hne ' ' (by decide), hne '\t' (by decide), hne '\r' (by decide),
      hne '\n' (by decide)]
  · have halpha : c.isAlpha = false := by
      rw [Bool.eq_false_iff]
      intro halpha
      change (decide (c.val ≥ 'A'.val ∧ c.val ≤ 'Z'.val) ||
        decide (c.val ≥ 'a'.val) && decide (c.val ≤ 'z'.val)) = true at halpha
      simp only [Bool.or_eq_true, Bool.and_eq_true, decide_eq_true_eq, ge_iff_le,
        UInt32.le_iff_toNat_le] at halpha
      change (65 ≤ c.toNat ∧ c.toNat ≤ 90) ∨ (97 ≤ c.toNat ∧ c.toNat ≤ 122) at halpha
      omega
    simp [isWordStart, halpha, hne '_' (by decide)]

/-- The digits of a number are one token. -/
theorem lexeme_number_append (value : Nat) {c : Char} (hc : isNumberChar c = false)
    (cs : List Char) :
    ∃ d ds, skip (Nat.toDigits 10 value ++ c :: cs) = d :: ds ∧
      lexeme d ds = (numberKind value, ⟨(Nat.toDigits 10 value).reverse, c :: cs⟩) := by
  have hall : ∀ d ∈ Nat.toDigits 10 value, d.isDigit = true :=
    fun d hd => Nat.isDigit_of_mem_toDigits (by decide) (by decide) hd
  have hvalue : (Nat.toDigits 10 value).foldl withDigit (fits 0) = fits value := by
    rw [foldl_withDigit hall, Nat.ofDigitChars_ten_toDigits]
  cases hdigits : Nat.toDigits 10 value with
  | nil => exact absurd hdigits Nat.toDigits_ne_nil
  | cons d ds =>
      rw [hdigits] at hall hvalue
      have hd := hall d List.mem_cons_self
      obtain ⟨hblank, hslash, hword⟩ := digit_apart hd
      have hread := digits_append (fun e he => hall e (List.mem_cons_of_mem _ he)) hc
        (withDigit (fits 0) d) [d] cs
      have hfold : ds.foldl withDigit (withDigit (fits 0) d) = fits value := hvalue
      have hlexeme := lexeme_number (Bool.eq_false_iff.1 hword) hd (ds ++ c :: cs)
      rw [show (some 0 : Option Nat) = fits 0 from rfl, hread, hfold] at hlexeme
      refine ⟨d, ds ++ c :: cs, skip_token (Bool.eq_false_iff.1 hblank) (by simp [hslash]), ?_⟩
      rw [hlexeme, List.reverse_cons]
      rfl

/-- A character that starts no symbol of two characters is a symbol by itself. -/
theorem symbol_alone {c : Char} (hpair : ∀ d, TokenKind.ofPair? c d = none) (cs : List Char) :
    symbol c cs = (.ofChar c, ⟨[c], cs⟩) := by
  cases cs with
  | nil => rfl
  | cons d ds => simp [symbol, hpair]

/-! ## Reading -/

/-- Scanning the first text reads tokens of some kinds, and leaves the second. -/
inductive Reads : List Char → List TokenKind → List Char → Prop where
  | done (cs : List Char) : Reads cs [] cs
  | token {cs more ds rest : List Char} {c : Char} {kind : TokenKind} {kinds : List TokenKind}
      (hskip : skip cs = c :: more) (hkind : (lexeme c more).1 = kind)
      (hrest : (lexeme c more).2.rest = ds) (h : Reads ds kinds rest) :
      Reads cs (kind :: kinds) rest

namespace Reads

variable {cs rest : List Char} {kind : TokenKind} {kinds : List TokenKind}

theorem first (h : Reads cs (kind :: kinds) rest) (offset : Nat) :
    (Scan.first offset cs).token.kind = kind ∧ Reads (Scan.first offset cs).rest kinds rest := by
  cases h with
  | token hskip hkind hrest h =>
      obtain ⟨hfirst, hbehind⟩ := first_of_skip offset hskip
      exact ⟨hfirst.trans hkind, (hbehind.trans hrest) ▸ h⟩

/-- Where no token is read, all of the text is left. -/
theorem eq_of_nil (h : Reads cs [] rest) : cs = rest := by
  cases h
  rfl

/-- What is skipped before the first token does not matter. -/
theorem of_skip {ds : List Char} (hskip : skip ds = skip cs) (h : Reads cs (kind :: kinds) rest) :
    Reads ds (kind :: kinds) rest := by
  cases h with
  | token hcs hkind hrest h => exact .token (hskip.trans hcs) hkind hrest h

/-- Scanning comes to what is behind the tokens that it reads. -/
theorem reaches (h : Reads cs kinds rest) : Reaches cs rest := by
  induction h with
  | done cs => exact .refl cs
  | token hskip hkind hrest h ih => exact (hrest ▸ reaches_behind hskip).trans ih

theorem number (value : Nat) {c : Char} (hc : isNumberChar c = false)
    (h : Reads (c :: cs) kinds rest) :
    Reads (Nat.toDigits 10 value ++ c :: cs) (numberKind value :: kinds) rest := by
  obtain ⟨d, ds, hskip, hlexeme⟩ := lexeme_number_append value hc cs
  exact .token hskip (by rw [hlexeme]) (by rw [hlexeme]) h

/-- A character that starts no symbol of two characters is a token whatever follows. -/
theorem character {c : Char} (hskip : ∀ ds, skip (c :: ds) = c :: ds)
    (hlexeme : ∀ ds, lexeme c ds = symbol c ds) (hpair : ∀ d, TokenKind.ofPair? c d = none)
    (h : Reads cs kinds rest) : Reads (c :: cs) (TokenKind.ofChar c :: kinds) rest := by
  refine .token (hskip cs) ?_ ?_ h
  · rw [hlexeme, symbol_alone hpair]
  · rw [hlexeme, symbol_alone hpair]

theorem parenOpen (h : Reads cs kinds rest) : Reads ('(' :: cs) (.parenOpen :: kinds) rest := by
  refine character (fun _ => rfl) (fun _ => rfl) (fun d => ?_) h
  unfold TokenKind.ofPair?
  split <;> simp_all

theorem semicolon (h : Reads cs kinds rest) : Reads (';' :: cs) (.semicolon :: kinds) rest := by
  refine character (fun _ => rfl) (fun _ => rfl) (fun d => ?_) h
  unfold TokenKind.ofPair?
  split <;> simp_all

theorem braceClose (h : Reads cs kinds rest) :
    Reads ('\x7d' :: cs) (.braceClose :: kinds) rest :=
  character (fun _ => rfl) (fun _ => rfl) ofPair?_brace h

end Reads

end Scan

/-! ## The text that deferral splices in -/

open Scan (Reads)

/-- The tokens of the dispatch call. -/
def dispatchKinds : List TokenKind := [.ident dispatchName, .parenOpen, .parenClose, .semicolon]

/-- The tokens of the clearing marker of a depth. -/
def clearKinds (depth : Nat) : List TokenKind :=
  [.kwBegin, .braceOpen, .ident clearName, .parenOpen, Scan.numberKind depth, .parenClose,
    .braceClose]

theorem reads_clearFragment (depth : Nat) (rest : List Char) :
    Reads ((clearFragment depth).toList ++ rest) (clearKinds depth) rest := by
  rw [toList_clearFragment, List.append_assoc, List.append_assoc]
  have hnumber : Reads (Nat.toDigits 10 depth ++ (") \x7d".toList ++ rest))
      [Scan.numberKind depth, .parenClose, .braceClose] rest := by
    refine Reads.number depth rfl ?_
    refine .token (c := ')') rfl rfl rfl ?_
    have hbrace : Reads (' ' :: '\x7d' :: rest) [.braceClose] rest :=
      .of_skip (Scan.skip_blank rfl _) (.braceClose (.done rest))
    exact hbrace
  generalize Nat.toDigits 10 depth ++ (") \x7d".toList ++ rest) = cs at hnumber
  refine .token (c := 'b') rfl rfl rfl ?_
  refine .token (c := '\x7b') rfl rfl rfl ?_
  refine .token (c := 'a') rfl rfl rfl ?_
  exact hnumber.parenOpen

/-- A text of whole tokens that does not end in a word swallows nothing. -/
theorem Closed.of_reads {text : String} {kinds : List TokenKind}
    (hreads : ∀ rest, Reads (text.toList ++ rest) kinds rest)
    (hlast : text.toList.getLast?.any Scan.isWordChar = false) : Closed text := by
  intro left rest
  have hback : Buffer.fuses text.toList.getLast? rest.head? = false := by
    rw [Buffer.fuses, hlast, Bool.false_and]
  rw [Buffer.padded, hback]
  rw [if_neg Bool.false_ne_true, List.append_nil, List.append_assoc]
  split
  · exact .blank rfl (hreads rest).reaches
  · exact (hreads rest).reaches

theorem reads_dispatchFragment (depth : Nat) (rest : List Char) :
    Reads ((dispatchFragment depth).toList ++ rest) dispatchKinds
      (' ' :: ((clearFragment depth).toList ++ rest)) := by
  rw [toList_dispatchFragment, List.append_assoc]
  generalize (clearFragment depth).toList ++ rest = cs
  refine .token (c := 'a') rfl rfl rfl ?_
  refine .token (c := '(') rfl rfl rfl ?_
  refine .token (c := ')') rfl rfl rfl ?_
  exact .token (c := ';') rfl rfl rfl (.done _)

end TwoPhase
