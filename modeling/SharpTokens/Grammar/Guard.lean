/-!
# A limit on nesting

A guard counts the constructs that are being read one inside another. Entering another one is
refused at a limit, so that no text can be nested deeper than what is set.
-/

namespace SharpTokens

/-- How many constructs are open. -/
structure Guard where
  depth : Nat
  deriving DecidableEq, Repr

/-- A refused entry: the depth it would have led to, and the limit. -/
structure DepthExceeded where
  depth : Nat
  limit : Nat
  deriving DecidableEq, Repr

def DepthExceeded.message (e : DepthExceeded) : String :=
  "nesting depth " ++ toString e.depth ++ " exceeds limit " ++ toString e.limit

namespace Guard

/-- Depths and limits are 64-bit words, and this is the largest. As a limit it stands for none. -/
def unlimited : Nat := 0xFFFFFFFFFFFFFFFF

def defaultLimit : Nat := 128

def initial : Guard := ⟨0⟩

def enter (g : Guard) (limit : Nat) : Except DepthExceeded Guard :=
  let next := min (g.depth + 1) unlimited
  if limit < next then .error ⟨next, limit⟩ else .ok ⟨next⟩

def leave (g : Guard) : Guard := ⟨g.depth - 1⟩

end Guard

end SharpTokens
