/-!
# Sets of characters

A set of characters is a list of ranges of code points. Besides membership a set answers one
question about the UTF-8 encoding of its members: whether one of them is encoded with the same
leading byte as a given character. A reader that works byte by byte cannot tell such a character
from a member until it has read on.
-/

namespace SharpTokens.Text

/-- A set of characters, as inclusive ranges of code points. -/
structure CharSet where
  ranges : List (Nat × Nat)
  deriving DecidableEq, Repr

namespace CharSet

def mem (s : CharSet) (c : Char) : Bool :=
  s.ranges.any fun r => r.1 ≤ c.toNat && c.toNat ≤ r.2

def single (c : Char) : CharSet := ⟨[(c.toNat, c.toNat)]⟩

def ofList (cs : List Char) : CharSet := ⟨cs.map fun c => (c.toNat, c.toNat)⟩

def range (lo hi : Char) : CharSet := ⟨[(lo.toNat, hi.toNat)]⟩

def union (s t : CharSet) : CharSet := ⟨s.ranges ++ t.ranges⟩

/-- Every character but those of `cs`, which are given in ascending order. -/
def except (cs : List Char) : CharSet := ⟨gaps 0 cs⟩
where
  /-- The ranges between the given characters, from code point `lo` on. -/
  gaps (lo : Nat) : List Char → List (Nat × Nat)
    | [] => [(lo, 0x10FFFF)]
    | c :: cs =>
      if lo < c.toNat then (lo, c.toNat - 1) :: gaps (c.toNat + 1) cs else gaps (c.toNat + 1) cs

/-! ### Leading bytes -/

/-- The code points whose UTF-8 encoding starts with the same byte as that of `c`, as a range. -/
def leadRange (c : Char) : Nat × Nat :=
  let n := c.toNat
  if n < 0x80 then (n, n)
  else if n < 0x800 then (n / 0x40 * 0x40, n / 0x40 * 0x40 + 0x3F)
  else if n < 0x10000 then (max 0x800 (n / 0x1000 * 0x1000), n / 0x1000 * 0x1000 + 0xFFF)
  else (max 0x10000 (n / 0x40000 * 0x40000), n / 0x40000 * 0x40000 + 0x3FFFF)

/-- Some member is encoded with the same leading byte as `c`. -/
def hasLead (s : CharSet) (c : Char) : Bool :=
  let block := leadRange c
  s.ranges.any fun r => max r.1 block.1 ≤ min r.2 block.2

end CharSet

end SharpTokens.Text
