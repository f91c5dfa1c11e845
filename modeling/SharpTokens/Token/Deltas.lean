import SharpTokens.Token.Basic

/-!
# Relative positions

Editors take tokens as an array of words, five to a token, in which each token is placed relative to
the one before: lines by their difference, columns by their difference on the same line and as they
are otherwise.
-/

namespace SharpTokens

open Text

/-- Why tokens have no relative form, or an array is none. -/
inductive DeltaError where
  /-- a token before the one that precedes it -/
  | outOfOrder (index : Nat)
  /-- a number of words that is no multiple of five -/
  | misaligned (length : Nat)
  /-- a position that is no word -/
  | overflow (index : Nat)
  deriving DecidableEq, Repr

def DeltaError.message : DeltaError → String
  | .outOfOrder index => "token " ++ toString index ++ " is out of order"
  | .misaligned length => "delta data length " ++ toString length ++ " is not a multiple of 5"
  | .overflow index => "delta data overflows absolute position at token " ++ toString index

namespace Deltas

def entry (before : Position) (t : Token) : Array UInt32 :=
  #[t.line - before.line, if t.line = before.line then t.start - before.character else t.start,
    t.length, t.type, t.modifiers]

/-- The words of tokens after a position, the first of them at `index`, behind those found
before. -/
def encodeFrom (before : Position) (index : Nat) :
    List Token → Array UInt32 → Except DeltaError (Array UInt32)
  | [], found => .ok found
  | t :: rest, found =>
    if before.le t.position then encodeFrom t.position (index + 1) rest (found ++ entry before t)
    else .error (.outOfOrder index)

def encode (tokens : List Token) : Except DeltaError (List UInt32) :=
  (encodeFrom ⟨0, 0⟩ 0 tokens #[]).map Array.toList

/-- A word that is the sum of two, if there is one. -/
def sum? (a b : UInt32) : Option UInt32 :=
  if a.toNat + b.toNat < UInt32.size then some (a + b) else none

def move? (before : Position) (line start : UInt32) : Option Position := do
  let newLine ← sum? before.line line
  let newStart ← if line = 0 then sum? before.character start else some start
  return ⟨newLine, newStart⟩

/-- The tokens of an array after a position, the first of them at `index`, behind those found
before. -/
def decodeFrom (before : Position) (index : Nat) :
    List UInt32 → Array Token → Except DeltaError (Array Token)
  | line :: start :: length :: type :: modifiers :: rest, found =>
    match move? before line start with
    | some p =>
      decodeFrom p (index + 1) rest (found.push ⟨p.line, p.character, length, type, modifiers⟩)
    | none => .error (.overflow index)
  | _, found => .ok found

def decode (data : List UInt32) : Except DeltaError (List Token) :=
  if data.length % 5 = 0 then (decodeFrom ⟨0, 0⟩ 0 data #[]).map Array.toList
  else .error (.misaligned data.length)

end Deltas

end SharpTokens
