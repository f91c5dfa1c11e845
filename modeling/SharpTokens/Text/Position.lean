/-!
# Places in a text

A text is a list of characters. Its bytes are those of its UTF-8 encoding, and spans are counted in
them; editors count columns in UTF-16 code units, and so do positions.
-/

namespace SharpTokens.Text

/-! ### Measures -/

/-- The UTF-16 code units of a character. -/
def units (c : Char) : Nat := if c.toNat < 0x10000 then 1 else 2

/-- The length of a text in UTF-16 code units. -/
def width (cs : List Char) : Nat := cs.foldl (fun n c => n + units c) 0

def byteSize (cs : List Char) : Nat := cs.foldl (fun n c => n + c.utf8Size) 0

/-- A count as a 32-bit word, at most the largest one. -/
def saturate (n : Nat) : UInt32 :=
  if n < UInt32.size then n.toUInt32 else 0xFFFFFFFF

/-! ### Spans -/

/-- A half-open range of bytes. -/
structure Span where
  start : Nat
  stop : Nat
  deriving DecidableEq, Repr

namespace Span

def point (offset : Nat) : Span := ⟨offset, offset⟩

def length (s : Span) : Nat := s.stop - s.start

def isEmpty (s : Span) : Bool := s.start == s.stop

def join (s t : Span) : Span := ⟨min s.start t.start, max s.stop t.stop⟩

end Span

/-! ### Positions -/

/-- A line and a column in UTF-16 code units, both counted from zero. -/
structure Position where
  line : UInt32
  character : UInt32
  deriving DecidableEq, Repr

/-- Reading order: by line, then by column. -/
def Position.le (p q : Position) : Bool :=
  p.line < q.line || (p.line == q.line && p.character ≤ q.character)

end SharpTokens.Text
