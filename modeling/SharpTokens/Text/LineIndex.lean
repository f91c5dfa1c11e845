import SharpTokens.Text.Position

/-!
# Lines

A line ends at a line feed, at a carriage return and line feed together, or at a carriage return
alone. A `LineIndex` knows where each line of a text starts and so turns a byte offset into a
position. A `Cursor` answers the same question for offsets that mostly ascend, counting on from the
last answer.

A position is a line and a column in code units of UTF-16, as editors count. Both are words, and
saturate where a text has more lines or columns than a word can say.
-/

namespace SharpTokens.Text

/-- A line ends after `c` when `after` is the text that follows. -/
def endsLine (c : Char) (after : List Char) : Bool :=
  c == '\n' || (c == '\r' && after.head? != some '\n')

/-- Where a line starts, and the text from there on. -/
structure Line where
  start : Nat
  rest : List Char
  deriving Repr

/-- The lines of a text, in order. There is always at least one. -/
structure LineIndex where
  lines : Array Line
  deriving Repr

/-- Passes over the characters that start within the first `n` bytes of a text, and returns the
UTF-16 units passed over, added to `count`, with the text that is left. -/
def advance : (n : Nat) → (count : Nat) → List Char → Nat × List Char
  | _, count, [] => (count, [])
  | n, count, c :: cs =>
    if n = 0 then (count, c :: cs) else advance (n - c.utf8Size) (count + units c) cs

/-- Whether the first `n` bytes of a text are whole characters of it. -/
def isPrefixLength : (n : Nat) → List Char → Bool
  | 0, _ => true
  | _ + 1, [] => false
  | n + 1, c :: cs => c.utf8Size ≤ n + 1 && isPrefixLength (n + 1 - c.utf8Size) cs

namespace LineIndex

/-- The lines that start in a text whose first byte is at `offset`, after those found before. -/
def collect (offset : Nat) : List Char → Array Line → Array Line
  | [], found => found
  | c :: cs, found =>
    let next := offset + c.utf8Size
    collect next cs (if endsLine c cs then found.push ⟨next, cs⟩ else found)

def ofText (text : List Char) : LineIndex := ⟨collect 0 text #[⟨0, text⟩]⟩

def size (ix : LineIndex) : Nat := ix.lines.size

def lineStart (ix : LineIndex) (line : Nat) : Nat := (ix.lines[line]?.map (·.start)).getD 0

def lineRest (ix : LineIndex) (line : Nat) : List Char := (ix.lines[line]?.map (·.rest)).getD []

/-- Halves the lines from `lo` to before `hi`, where line `lo` starts at or before `offset` and line
`hi` does not, until one is left. `n` bounds the number of halvings. -/
def search (ix : LineIndex) (offset : Nat) : (n lo hi : Nat) → Nat
  | 0, lo, _ => lo
  | n + 1, lo, hi =>
    if hi ≤ lo + 1 then lo
    else
      let mid := (lo + hi) / 2
      if ix.lineStart mid ≤ offset then search ix offset n mid hi else search ix offset n lo mid

/-- The line that holds a byte offset: the last one that starts at or before it. -/
def line (ix : LineIndex) (offset : Nat) : Nat := ix.search offset ix.size 0 ix.size

def position (ix : LineIndex) (offset : Nat) : Position :=
  let line := ix.line offset
  ⟨saturate line, saturate (advance (offset - ix.lineStart line) 0 (ix.lineRest line)).1⟩

/-- Whether a byte offset lies between two characters, or at either end of the text. -/
def isBoundary (ix : LineIndex) (offset : Nat) : Bool :=
  let line := ix.line offset
  isPrefixLength (offset - ix.lineStart line) (ix.lineRest line)

end LineIndex

/-- A place in a text and the text from there on. -/
structure Cursor where
  index : LineIndex
  line : Nat
  offset : Nat
  column : Nat
  rest : List Char

namespace Cursor

def atLine (ix : LineIndex) (line : Nat) : Cursor :=
  ⟨ix, line, ix.lineStart line, 0, ix.lineRest line⟩

def start (ix : LineIndex) : Cursor := atLine ix 0

/-- The position of a byte offset, and the cursor moved there. On the same line and further on, only
the text in between is counted; otherwise the line is counted from its start. -/
def position (c : Cursor) (offset : Nat) : Position × Cursor :=
  let line := c.index.line offset
  let base := if line ≠ c.line ∨ offset < c.offset then atLine c.index line else c
  let passed := advance (offset - base.offset) base.column base.rest
  (⟨saturate line, saturate passed.1⟩, ⟨c.index, line, offset, passed.1, passed.2⟩)

end Cursor

def positions (ix : LineIndex) (offsets : List Nat) : Array Position :=
  (offsets.foldl (fun (acc : Array Position × Cursor) offset =>
    let (p, c) := acc.2.position offset
    (acc.1.push p, c)) (#[], Cursor.start ix)).1

end SharpTokens.Text
