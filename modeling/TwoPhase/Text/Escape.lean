/-!
# Escapes in string literals

A backslash introduces one of six escapes.  A backslash before any other character stands for
itself, and so does that character.
-/

namespace TwoPhase.Text.Escape

/-- The character that an escape letter stands for. -/
def resolve? : Char → Option Char
  | 'n' => some '\n'
  | 'r' => some '\r'
  | 't' => some '\t'
  | '\\' => some '\\'
  | '"' => some '"'
  | '0' => some '\x00'
  | _ => none

/-- Reads the inside of a literal, given what the characters before it denote, last first. -/
def decodeFrom (denoted : List Char) : List Char → List Char
  | [] => denoted.reverse
  | '\\' :: c :: cs =>
    match resolve? c with
    | some d => decodeFrom (d :: denoted) cs
    | none => decodeFrom (c :: '\\' :: denoted) cs
  | c :: cs => decodeFrom (c :: denoted) cs

/-- The text that the inside of a literal denotes. -/
def decode (cs : List Char) : String := String.ofList (decodeFrom [] cs)

end TwoPhase.Text.Escape
