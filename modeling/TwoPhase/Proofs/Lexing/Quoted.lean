import TwoPhase.Proofs.Text.Cuts
import TwoPhase.Proofs.Lexing.Patterns

/-!
# Texts written as literals

Every text has a written form: its characters with escapes for the few that a literal cannot hold,
between two quotes.  Two passes read it back and have to agree.  One looks for the closing quote and
takes a backslash together with what follows it, the other makes characters of escapes.  Both take
the written form of a character as one piece, so neither loses step in a run of backslashes.
-/

namespace TwoPhase

namespace Text.Escape

/-- How a character is written inside a literal. -/
def encodeChar : Char → List Char
  | '\\' => ['\\', '\\']
  | '"' => ['\\', '"']
  | '\n' => ['\\', 'n']
  | '\r' => ['\\', 'r']
  | c => [c]

/-- What is between the quotes of the literal of a text. -/
def encode (cs : List Char) : List Char := cs.flatMap encodeChar

variable {c : Char}

@[simp] theorem encode_nil : encode [] = [] := rfl

@[simp] theorem encode_cons (c : Char) (cs : List Char) :
    encode (c :: cs) = encodeChar c ++ encode cs := List.flatMap_cons

/-- A character is written as an escape that stands for it, or as itself where no pass takes it for
anything else. -/
theorem encodeChar_cases (c : Char) :
    (∃ letter, encodeChar c = ['\\', letter] ∧ resolve? letter = some c ∧ letter ≠ '\n') ∨
      encodeChar c = [c] ∧ Scan.isPlain c = true := by
  unfold encodeChar
  split
  · exact .inl ⟨'\\', rfl, rfl, by decide⟩
  · exact .inl ⟨'"', rfl, rfl, by decide⟩
  · exact .inl ⟨'n', rfl, rfl, by decide⟩
  · exact .inl ⟨'r', rfl, rfl, by decide⟩
  · rename_i hslash hquote hline hreturn
    refine .inr ⟨rfl, ?_⟩
    simp only [Scan.isPlain, Bool.not_eq_true', Bool.or_eq_false_iff, beq_eq_false_iff_ne]
    exact ⟨⟨⟨hquote, hslash⟩, hline⟩, hreturn⟩

/-! ## The two passes -/

theorem decodeFrom_cons (denoted : List Char) (hplain : Scan.isPlain c = true) (cs : List Char) :
    decodeFrom denoted (c :: cs) = decodeFrom (c :: denoted) cs := by
  have hslash : c ≠ '\\' := by
    rintro rfl
    exact absurd hplain (by decide)
  rw [decodeFrom]
  intro d ds heq
  exact absurd heq hslash

/-- The written form of a character denotes it, whatever was read before. -/
theorem decodeFrom_encodeChar (denoted : List Char) (c : Char) (cs : List Char) :
    decodeFrom denoted (encodeChar c ++ cs) = decodeFrom (c :: denoted) cs := by
  rcases encodeChar_cases c with ⟨letter, hwritten, hresolve, _⟩ | ⟨hwritten, hplain⟩
  · rw [hwritten, List.cons_append, List.singleton_append, decodeFrom, hresolve]
  · rw [hwritten, List.singleton_append, decodeFrom_cons denoted hplain]

theorem decodeFrom_encode (denoted cs : List Char) :
    decodeFrom denoted (encode cs) = denoted.reverse ++ cs := by
  induction cs generalizing denoted with
  | nil => simp [decodeFrom]
  | cons c cs ih =>
      calc decodeFrom denoted (encode (c :: cs))
          = decodeFrom (c :: denoted) (encode cs) := by
            rw [encode_cons, decodeFrom_encodeChar]
        _ = (c :: denoted).reverse ++ cs := ih _
        _ = denoted.reverse ++ c :: cs := by simp

/-- A literal denotes the text that it was written for. -/
theorem decode_encode (cs : List Char) : decode (encode cs) = String.ofList cs := by
  rw [decode, decodeFrom_encode]
  rfl

/-- A backslash in front of an `n` stays a backslash in front of an `n`. -/
example : encode "\\n".toList = "\\\\n".toList ∧ decode "\\\\n".toList = "\\n" := by decide

/-- The written form of a text has no quote that would end the literal, and no backslash that is
not followed by the rest of its escape. -/
theorem encode_mem_stringBody (cs : List Char) : encode cs ∈ Scan.stringBody := by
  induction cs with
  | nil => exact Scan.mem_stringBody.2 (.inl rfl)
  | cons c cs ih =>
      rw [encode_cons]
      apply Scan.mem_stringBody.2
      rcases encodeChar_cases c with ⟨letter, hwritten, _, hline⟩ | ⟨hwritten, hplain⟩
      · exact .inr (.inr ⟨letter, encode cs, hline, ih, by rw [hwritten]; rfl⟩)
      · exact .inr (.inl ⟨c, encode cs, hplain, ih, by rw [hwritten]; rfl⟩)

end Text.Escape

open Text.Escape (encode)

/-- The literal of a text. -/
def quoted (text : String) : List Char := '"' :: (encode text.toList ++ ['"'])

/-! ## Scanning -/

namespace Scan

/-- A literal is read up to its own closing quote, whatever follows. -/
theorem lexeme_quoted (text : String) (rest : List Char) :
    lexeme '"' (encode text.toList ++ '"' :: rest)
      = (.str text, ⟨(quoted text).reverse, rest⟩) := by
  have hinside := inside_closed (Text.Escape.encode_mem_stringBody text.toList) ['"'] rest
  have hclosed : (inside ['"'] (encode text.toList ++ '"' :: rest)).rest = '"' :: rest := by
    rw [hinside]
  rw [lexeme_closed hclosed, hinside]
  simp [quoted, Text.Escape.decode_encode]

theorem first_quoted (offset : Nat) (text : String) (rest : List Char) :
    (first offset (quoted text ++ rest)).token
        = ⟨.str text, ⟨offset, offset + Text.byteLength (quoted text)⟩, (quoted text).reverse⟩ ∧
      (first offset (quoted text ++ rest)).rest = rest := by
  have hsplit : trivia false [] (quoted text ++ rest)
      = ⟨[], '"' :: (encode text.toList ++ '"' :: rest)⟩ := by
    simp [quoted, trivia, isBlank]
  rw [first_of_trivia offset hsplit, lexeme_quoted]
  simp

end Scan

namespace Buffer

theorem next_quoted {b : Buffer} {text : String} {rest : List Char}
    (hafter : b.after = quoted text ++ rest) :
    b.next.1 = ⟨.str text, ⟨b.cursor, b.cursor + Text.byteLength (quoted text)⟩,
        (quoted text).reverse⟩ ∧
      b.next.2.after = rest := by
  have hfound : b.found = Scan.first b.cursor (quoted text ++ rest) := by rw [b.found_eq, hafter]
  have hfirst := Scan.first_quoted b.cursor text rest
  rw [← hfound] at hfirst
  exact hfirst

/-- Any text can be written as a literal, and is read back: whatever follows the literal, the first
token is the string of that text, and spans the literal from quote to quote. -/
theorem quoted_read_back (text rest : String) :
    let b := ofString (String.ofList (quoted text) ++ rest)
    b.next.1 = ⟨.str text, ⟨0, Text.byteLength (quoted text)⟩, (quoted text).reverse⟩ ∧
      Text.slice? b.chars 0 (Text.byteLength (quoted text)) = some (quoted text) ∧
      b.next.2.after = rest.toList := by
  intro b
  have hafter : b.after = quoted text ++ rest.toList := by simp [b, ofString]
  have hchars : b.chars = [] ++ quoted text ++ rest.toList := by simp [b, ofString, chars]
  obtain ⟨htoken, hrest⟩ := next_quoted hafter
  have hcursor : b.cursor = 0 := rfl
  rw [hcursor, Nat.zero_add] at htoken
  refine ⟨htoken, ?_, hrest⟩
  rw [hchars]
  exact Text.slice?_append [] (quoted text) rest.toList

end Buffer

end TwoPhase
