import SharpTokens.Text.Utf8

/-!
# JSON values

What is kept of a JSON value is what can matter to a reader of it: integers that are written with
digits alone have a value, other numbers have none, and a string whose escapes or bytes make no text
is garbled. It is up to a reader whether a garbled string matters where it stands.
-/

namespace SharpTokens

/-- A JSON value. The members of an object stay in the order in which they were written; a garbled
key is none. -/
inductive Json where
  | null
  | bool (value : Bool)
  | natural (value : Nat)
  | otherNumber
  | text (value : String)
  | garbled
  | array (items : List Json)
  | object (members : List (Option String × Json))
  deriving Repr

namespace Json

/-! ### Bytes with a meaning -/

abbrev byte (c : Char) : UInt8 := c.toNat.toUInt8

def ascii (word : String) : Bytes := word.toList.map byte

def hexValue? (b : UInt8) : Option Nat :=
  if byte '0' ≤ b && b ≤ byte '9' then some (b - byte '0').toNat
  else if byte 'a' ≤ b && b ≤ byte 'f' then some (b - byte 'a' + 10).toNat
  else if byte 'A' ≤ b && b ≤ byte 'F' then some (b - byte 'A' + 10).toNat
  else none

def isDigit (b : UInt8) : Bool := byte '0' ≤ b && b ≤ byte '9'

def isSpace (b : UInt8) : Bool := b == byte ' ' || b == byte '\t' || b == byte '\n' ||
    b == byte '\r'

end Json

end SharpTokens
