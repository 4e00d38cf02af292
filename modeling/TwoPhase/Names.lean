/-!
# Interned names

A table that gives every text a small number, the same text always the same one.  Numbers are given
out in order of first sight; the empty text and the vocabulary of the language come first.
-/

namespace TwoPhase

/-- The number of an interned text. -/
structure Name where
  index : Nat
  deriving DecidableEq, Inhabited, Repr

namespace Name

/-- The written form, `Name(index)`. -/
def render (n : Name) : String := s!"Name({n.index})"

end Name

/-- The texts interned so far, in order of their numbers. -/
structure NameTable where
  texts : Array String
  deriving Inhabited

namespace NameTable

/-- Texts every table starts with: the empty text, keywords, and the names of the core subs. -/
def vocabulary : Array String :=
  #["", "begin", "sub", "fn", "let", "if", "else", "while", "return", "true", "false", "nil",
    "main", "print", "at_runtime", "after_runtime", "lex_stuff", "eval", "require", "callers",
    "die", "len", "str"]

def initial : NameTable := ⟨vocabulary⟩

/-- The number of `text`, which is new if `text` is. -/
def intern (t : NameTable) (text : String) : Name × NameTable :=
  match t.texts.idxOf? text with
  | some index => (⟨index⟩, t)
  | none => (⟨t.texts.size⟩, ⟨t.texts.push text⟩)

/-- The text behind a number; a number never given out has the empty text. -/
def lookup (t : NameTable) (n : Name) : String := t.texts.getD n.index ""

def size (t : NameTable) : Nat := t.texts.size

/-- Whether nothing but the empty text has been interned. -/
def isEmpty (t : NameTable) : Bool := t.size ≤ 1

end NameTable

end TwoPhase
