import TwoPhase.Token.Scan
import TwoPhase.Diagnostic.Basic

/-!
# Source buffers

A buffer is the text of a unit under construction, with a cursor just past the last consumed token.
Tokens are scanned on demand, so text may be spliced in anywhere behind the cursor before it is
scanned.  What is consumed never changes: the text before the cursor is kept apart, last character
first.

A peeked token is remembered until it is consumed or a splice makes it stale; it is always the token
that scanning again would give.  The tokens that were consumed are kept too, in the order in which
they were read.
-/

namespace TwoPhase

structure Buffer where
  /-- The text before the cursor, last character first. -/
  before : List Char
  /-- The text after the cursor. -/
  after : List Char
  /-- The byte offset of the cursor. -/
  cursor : Nat
  /-- What scanning at the cursor finds, if the next token was looked at. -/
  peeked : Option Scan.First
  /-- The tokens consumed so far, the last first. -/
  consumed : List Token
  cursor_eq : cursor = Text.byteLength before
  peeked_eq : ∀ found, peeked = some found → found = Scan.first cursor after

namespace Buffer

/-- A buffer that holds a text, with nothing consumed. -/
def ofString (source : String) : Buffer :=
  ⟨[], source.toList, 0, none, [], rfl, by simp⟩

instance : Inhabited Buffer := ⟨ofString ""⟩

/-- All characters of the buffer. -/
def chars (b : Buffer) : List Char := b.before.reverse ++ b.after

/-- The whole text, spliced text included. -/
def source (b : Buffer) : String := String.ofList b.chars

/-- The text of a span, or the empty text where the span does not fit the buffer. -/
def slice (b : Buffer) (span : Span) : String :=
  String.ofList ((Text.slice? b.chars span.start span.stop).getD [])

/-! ## Tokens -/

/-- What scanning at the cursor finds. -/
def found (b : Buffer) : Scan.First :=
  match b.peeked with
  | some found => found
  | none => Scan.first b.cursor b.after

theorem found_eq (b : Buffer) : b.found = Scan.first b.cursor b.after := by
  unfold found
  split
  · rename_i found h
    exact b.peeked_eq found h
  · rfl

/-- The buffer that remembers what scanning at its cursor finds. -/
def lookAhead (b : Buffer) : Buffer :=
  { b with
    peeked := some (Scan.first b.cursor b.after)
    peeked_eq := by simp }

/-- The next token, and the buffer that remembers it. -/
@[inline] def peek (b : Buffer) : Token × Buffer :=
  match b.peeked with
  | some found => (found.token, b)
  | none =>
    let b := b.lookAhead
    (b.found.token, b)

/-- The next token, and the buffer with the cursor past it. -/
def next (b : Buffer) : Token × Buffer :=
  let f := b.found
  (f.token,
    { before := f.token.lexeme ++ (f.skipped ++ b.before)
      after := f.rest
      cursor := f.token.span.stop
      peeked := none
      consumed := f.token :: b.consumed
      cursor_eq := by
        have h : f = Scan.first b.cursor b.after := b.found_eq
        rw [h, Scan.first_span, b.cursor_eq]
        simp only [Text.byteLength_append]
        omega
      peeked_eq := by simp })

/-- Consuming a token moves the cursor and keeps the text. -/
theorem chars_next (b : Buffer) : b.next.2.chars = b.chars := by
  have h := Scan.first_append b.cursor b.after
  rw [← b.found_eq] at h
  simp only [next, chars, List.reverse_append, List.append_assoc] at h ⊢
  rw [h]

/-! ## Splices -/

/-- What a splice did. -/
structure Injection where
  /-- The offset where the text went in, its padding included. -/
  offset : Nat
  /-- Set where the rest of the current line will run before the text. -/
  warning : Option Diagnostic
  deriving DecidableEq, Inhabited

/-- Whether two adjacent characters would read as one word. -/
def fuses (left right : Option Char) : Bool :=
  left.any Scan.isWordChar && right.any Scan.isWordChar

/-- A text with a space on either side where it would otherwise run into its neighbours. -/
def padded (left : Option Char) (text : List Char) (right : Option Char) : List Char :=
  let front := if fuses left text.head? then [' '] else []
  let back := if fuses text.getLast? right then [' '] else []
  front ++ text ++ back

/-- The buffer with other text behind its cursor. -/
def withAfter (b : Buffer) (after : List Char) : Buffer :=
  { b with after := after, peeked := none, peeked_eq := by simp }

/-- Splices a text in right after the last consumed token. -/
def insertAtCursor (b : Buffer) (text : String) : Injection × Buffer :=
  let piece := padded b.before.head? text.toList b.after.head?
  (⟨b.cursor, none⟩, b.withAfter (piece ++ b.after))

/-- The span from the first to the last token of a text that starts at byte `offset`. -/
def codeSpan? (offset : Nat) (cs : List Char) : Option Span :=
  match Scan.tokens offset cs with
  | [] => none
  | token :: more => some ⟨token.span.start, ((token :: more).getLast (by simp)).span.stop⟩

/-- Splices a text in at the start of the next line, which is made where there is none.  Tokens left
on the current line draw a warning. -/
def insertNextLine (b : Buffer) (text : String) : Injection × Buffer :=
  let line := b.after.takeWhile (· != '\n')
  let warning := (codeSpan? b.cursor line).map fun span =>
    let code := Text.slice? line (span.start - b.cursor) (span.stop - b.cursor)
    .extraText span (String.ofList (code.getD []))
  let following := (b.after.dropWhile (· != '\n')).drop 1
  let piece := padded (some '\n') text.toList following.head?
  (⟨b.cursor + Text.byteLength line + 1, warning⟩,
    b.withAfter (line ++ '\n' :: (piece ++ following)))

end Buffer

end TwoPhase
