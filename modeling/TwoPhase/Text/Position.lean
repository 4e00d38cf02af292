/-!
# Offsets, lines and columns

Texts are measured in UTF-8 bytes and shown to people in lines and columns.  `cut` splits a text at
a byte offset, and fails inside a character; everything else here is read off the two halves.  Lines
and columns count from one, a column counts characters, and an offset past the end stands for the
end.
-/

namespace TwoPhase.Text

/-- Number of bytes of the UTF-8 encoding. -/
def byteLength (cs : List Char) : Nat := cs.foldl (fun size c => size + c.utf8Size) 0

@[simp] theorem byteLength_nil : byteLength [] = 0 := rfl

@[simp] theorem byteLength_append (xs ys : List Char) :
    byteLength (xs ++ ys) = byteLength xs + byteLength ys := by
  have h (size : Nat) : ys.foldl (fun size c => size + c.utf8Size) size = size + byteLength ys := by
    unfold byteLength
    induction ys generalizing size with
    | nil => simp
    | cons c cs ih =>
      rw [List.foldl_cons, List.foldl_cons, ih, ih (0 + c.utf8Size)]
      omega
  rw [byteLength, List.foldl_append, h]
  rfl

@[simp] theorem byteLength_cons (c : Char) (cs : List Char) :
    byteLength (c :: cs) = c.utf8Size + byteLength cs := by
  simpa [byteLength] using byteLength_append [c] cs

@[simp] theorem byteLength_reverse (cs : List Char) : byteLength cs.reverse = byteLength cs := by
  induction cs with
  | nil => rfl
  | cons c cs ih => simp [ih, Nat.add_comm]

/-- Cuts `size` bytes ahead, given the characters before, last first. -/
def cutFrom (before : List Char) : List Char → Nat → Option (List Char × List Char)
  | cs, 0 => some (before.reverse, cs)
  | [], _ + 1 => none
  | c :: cs, n + 1 =>
    if c.utf8Size ≤ n + 1 then cutFrom (c :: before) cs (n + 1 - c.utf8Size) else none

/-- The text before and after a byte offset; `none` inside a character or past the end. -/
def cut (cs : List Char) (offset : Nat) : Option (List Char × List Char) := cutFrom [] cs offset

/-- The text between two byte offsets, where both fall between characters and in order. -/
def slice? (cs : List Char) (start stop : Nat) : Option (List Char) :=
  if start ≤ stop then do
    let (_, right) ← cut cs start
    let (middle, _) ← cut right (stop - start)
    return middle
  else none

/-- A one-based line and column. -/
structure Position where
  line : Nat
  column : Nat
  deriving DecidableEq, Inhabited, Repr

/-- Walks `offset` bytes from `here`.  Inside a character the column falls back to one. -/
def walk (here : Position) : List Char → Nat → Position
  | [], _ => here
  | _ :: _, 0 => here
  | c :: cs, n + 1 =>
    if c.utf8Size ≤ n + 1 then
      let next := if c = '\n' then ⟨here.line + 1, 1⟩ else ⟨here.line, here.column + 1⟩
      walk next cs (n + 1 - c.utf8Size)
    else ⟨here.line, 1⟩

/-- Line and column of a byte offset. -/
def position (cs : List Char) (offset : Nat) : Position := walk ⟨1, 1⟩ cs offset

/-- The line that holds what is `offset` bytes ahead, given what precedes on the current line, last
character first. -/
def lineFrom? (before : List Char) : List Char → Nat → Option (List Char)
  | [], _ => some before.reverse
  | c :: cs, 0 => some (before.reverse ++ (c :: cs).takeWhile (· != '\n'))
  | c :: cs, n + 1 =>
    if c.utf8Size ≤ n + 1 then
      lineFrom? (if c = '\n' then [] else c :: before) cs (n + 1 - c.utf8Size)
    else none

/-- The line that holds a byte offset, without its line end; `none` inside a character. -/
def lineAt? (cs : List Char) (offset : Nat) : Option (List Char) := lineFrom? [] cs offset

end TwoPhase.Text
