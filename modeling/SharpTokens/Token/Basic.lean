import SharpTokens.Text.Position

/-!
# Tokens

A token is a declared name in a source text: where it is, how long it is, and what it declares, in
terms of a legend.
-/

namespace SharpTokens

open Text

/-- A declared name. Columns and lengths count UTF-16 code units. -/
structure Token where
  line : UInt32
  start : UInt32
  length : UInt32
  type : UInt32
  modifiers : UInt32
  deriving DecidableEq, Repr

namespace Token

def position (t : Token) : Position := ⟨t.line, t.start⟩

def hasModifier (t : Token) (mask : UInt32) : Bool := t.modifiers &&& mask != 0

def le (s t : Token) : Bool := s.position.le t.position

end Token

end SharpTokens
