import TwoPhase.Text.Position
import TwoPhase.Text.Escape
import TwoPhase.Token.Basic

/-!
# Scanning

The first token of a text is found in two steps: blanks and comments are skipped, then the longest
piece of text that is a token is read.  Where no token starts, one character is read as an error; a
digit run whose value needs more than 63 bits is an error as a whole.

A colon right after a word announces a path, whether one follows or not: such a word is never a
keyword.

Every step moves characters from the front of the text to those read so far, and does nothing else
to them: the `whole` lemmas say that the two together stay the same.

The main definitions are `first`, one token, and `tokens`, all tokens of a text.
-/

namespace TwoPhase.Scan

/-! ## Character classes -/

def isBlank (c : Char) : Bool := c == ' ' || c == '\t' || c == '\r' || c == '\n'

def isWordStart (c : Char) : Bool := c.isAlpha || c == '_'

/-- Characters that run together into one word. -/
def isWordChar (c : Char) : Bool := c.isAlphanum || c == '_'

def isNumberChar (c : Char) : Bool := c.isDigit || c == '_'

/-! ## Reading -/

/-- A text in two parts: what was read, last character first, and what is left. -/
structure Split where
  read : List Char
  rest : List Char
  deriving DecidableEq, Inhabited, Repr

/-- Both parts together. -/
def Split.whole (s : Split) : List Char := s.read.reverse ++ s.rest

@[simp] theorem Split.whole_mk (read rest : List Char) :
    (Split.mk read rest).whole = read.reverse ++ rest := rfl

/-- Skips blanks and comments.  A comment runs to the end of its line. -/
def trivia (inComment : Bool) (read : List Char) : List Char → Split
  | [] => ⟨read, []⟩
  | c :: cs =>
    if inComment then trivia (c != '\n') (c :: read) cs
    else if isBlank c then trivia false (c :: read) cs
    else if c == '/' && cs.head? == some '/' then trivia true (c :: read) cs
    else ⟨read, c :: cs⟩

@[simp] theorem whole_trivia (inComment : Bool) (read cs : List Char) :
    (trivia inComment read cs).whole = read.reverse ++ cs := by
  fun_induction trivia inComment read cs <;> simp_all

/-- Reads the rest of a word or path; `::` belongs to it only where another word follows. -/
def path (read : List Char) : List Char → Split
  | [] => ⟨read, []⟩
  | ':' :: ':' :: c :: cs =>
    if isWordStart c then path (c :: ':' :: ':' :: read) cs else ⟨read, ':' :: ':' :: c :: cs⟩
  | c :: cs => if isWordChar c then path (c :: read) cs else ⟨read, c :: cs⟩

@[simp] theorem whole_path (read cs : List Char) : (path read cs).whole = read.reverse ++ cs := by
  fun_induction path read cs <;> simp_all

/-- Reads the inside of a string literal, up to its closing quote or to where it must end. -/
def inside (read : List Char) : List Char → Split
  | [] => ⟨read, []⟩
  | ['\\'] => ⟨read, ['\\']⟩
  | '\\' :: c :: cs =>
    if c == '\n' then ⟨read, '\\' :: c :: cs⟩ else inside (c :: '\\' :: read) cs
  | c :: cs =>
    if c == '"' || c == '\n' || c == '\r' then ⟨read, c :: cs⟩ else inside (c :: read) cs

@[simp] theorem whole_inside (read cs : List Char) :
    (inside read cs).whole = read.reverse ++ cs := by
  fun_induction inside read cs <;> simp_all

/-- The largest value of an integer literal. -/
def maxValue : Nat := Nat.pow 2 63 - 1

/-- A value with another digit behind it, as long as it fits; underscores only separate digits. -/
def withDigit (value : Option Nat) (c : Char) : Option Nat :=
  if c == '_' then value
  else value.bind fun value =>
    let larger := value * 10 + (c.toNat - '0'.toNat)
    if larger ≤ maxValue then some larger else none

/-- Reads the rest of a digit run, and gives its value if that fits. -/
def digits (value : Option Nat) (read : List Char) : List Char → Option Nat × Split
  | [] => (value, ⟨read, []⟩)
  | c :: cs =>
    if isNumberChar c then digits (withDigit value c) (c :: read) cs
    else (value, ⟨read, c :: cs⟩)

@[simp] theorem whole_digits (value : Option Nat) (read cs : List Char) :
    (digits value read cs).2.whole = read.reverse ++ cs := by
  fun_induction digits value read cs <;> simp_all

/-- Reads a symbol of two characters if there is one, and otherwise the first character. -/
def symbol (c : Char) : List Char → TokenKind × Split
  | [] => (.ofChar c, ⟨[c], []⟩)
  | d :: cs =>
    match TokenKind.ofPair? c d with
    | some kind => (kind, ⟨[d, c], cs⟩)
    | none => (.ofChar c, ⟨[c], d :: cs⟩)

@[simp] theorem whole_symbol (c : Char) (cs : List Char) : (symbol c cs).2.whole = c :: cs := by
  fun_cases symbol c cs <;> simp_all

/-- The kind of a word or path, given the text after it. -/
def wordKind (word after : List Char) : TokenKind :=
  if after.head? == some ':' then .ident (String.ofList word) else .ofWord word

/-- Reads the token that starts a text with neither a blank nor a comment in front. -/
def lexeme (c : Char) (cs : List Char) : TokenKind × Split :=
  if isWordStart c then
    let s := path [c] cs
    (wordKind s.read.reverse s.rest, s)
  else if c.isDigit then
    let (value, s) := digits (withDigit (some 0) c) [c] cs
    match value with
    | some value => (.int (Int64.ofNat value), s)
    | none => (.bad .integerOutOfRange, s)
  else if c == '"' then
    let s := inside [c] cs
    match s.rest with
    | '"' :: rest => (.str (Text.Escape.decode (s.read.reverse.drop 1)), ⟨'"' :: s.read, rest⟩)
    | _ => (.bad .unterminatedString, s)
  else symbol c cs

theorem whole_lexeme (c : Char) (cs : List Char) : (lexeme c cs).2.whole = c :: cs := by
  unfold lexeme
  split
  · simp
  · split
    · have h := whole_digits (withDigit (some 0) c) [c] cs
      split
      split <;> simp_all
    · split
      · have h := whole_inside [c] cs
        dsimp only
        split <;> simp_all [Split.whole]
      · simp

/-! ## Tokens -/

/-- The first token of a text, the characters skipped before it, last first, and the text after
it. -/
structure First where
  skipped : List Char
  token : Token
  rest : List Char
  deriving DecidableEq, Inhabited, Repr

/-- Reads the first token of a text that starts at byte `offset`.  At the end of the text it is
empty. -/
def first (offset : Nat) (cs : List Char) : First :=
  let skipped := trivia false [] cs
  let start := offset + Text.byteLength skipped.read
  match skipped.rest with
  | [] => ⟨skipped.read, ⟨.endOfInput, .point start, []⟩, []⟩
  | c :: more =>
    let (kind, found) := lexeme c more
    ⟨skipped.read, ⟨kind, ⟨start, start + Text.byteLength found.read⟩, found.read⟩, found.rest⟩

/-- Nothing is lost and nothing is added. -/
theorem first_append (offset : Nat) (cs : List Char) :
    (first offset cs).skipped.reverse ++ (first offset cs).token.lexeme.reverse
      ++ (first offset cs).rest = cs := by
  have hskipped := whole_trivia false [] cs
  unfold first
  dsimp only
  split
  · rename_i h
    simpa [Split.whole, h] using hskipped
  · rename_i c more h
    have hlexeme := whole_lexeme c more
    simp only [Split.whole, h] at hskipped hlexeme
    rw [List.append_assoc, hlexeme]
    simpa using hskipped

/-- The span of a token starts behind what was skipped, and is as long as its text. -/
theorem first_span (offset : Nat) (cs : List Char) :
    (first offset cs).token.span.stop
      = offset + Text.byteLength (first offset cs).skipped
        + Text.byteLength (first offset cs).token.lexeme := by
  unfold first
  dsimp only
  split <;> simp [Span.point]

/-- The rest of a text after a token is shorter than the text. -/
theorem first_rest_length (offset : Nat) (cs : List Char)
    (h : (first offset cs).token.lexeme ≠ []) :
    (first offset cs).rest.length < cs.length := by
  have happend := congrArg List.length (first_append offset cs)
  have hpos := List.length_pos_iff.2 h
  simp only [List.length_append, List.length_reverse] at happend
  omega

/-- All tokens of a text that starts at byte `offset`, the end of input left out. -/
def tokens (offset : Nat) (cs : List Char) : List Token :=
  let found := first offset cs
  if _ : found.token.lexeme = [] then []
  else found.token :: tokens found.token.span.stop found.rest
termination_by cs.length
decreasing_by exact first_rest_length offset cs ‹_›

end TwoPhase.Scan
