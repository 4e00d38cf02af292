/-!
# Byte spans

A span is a half-open range of byte offsets into the text of one unit.  Offsets count UTF-8 bytes,
so the span of a token is as long as the encoded token.
-/

namespace TwoPhase

/-- The bytes from `start` up to, but not including, `stop`. -/
structure Span where
  start : Nat
  stop : Nat
  deriving DecidableEq, Inhabited, Repr

namespace Span

/-- The largest offset a span can record. -/
def maxOffset : Nat := Nat.pow 2 32 - 1

/-- The empty span at an offset. -/
def point (offset : Nat) : Span := ⟨offset, offset⟩

/-- The span of a range of any size; offsets past `maxOffset` stop there. -/
def ofRange (start stop : Nat) : Span := ⟨min start maxOffset, min stop maxOffset⟩

/-- Number of bytes covered; a span that runs backwards covers none. -/
def length (s : Span) : Nat := s.stop - s.start

def isEmpty (s : Span) : Bool := s.length == 0

def contains (s : Span) (offset : Nat) : Bool := s.start ≤ offset && offset < s.stop

/-- The least span that covers both. -/
def merge (s t : Span) : Span := ⟨min s.start t.start, max s.stop t.stop⟩

/-- The written form, `start..stop`. -/
def render (s : Span) : String := s!"{s.start}..{s.stop}"

end Span

end TwoPhase
