import SharpTokens.Json.Basic

/-!
# Reading JSON

The grammar is strict: nothing may be left out, doubled or added. Space may stand around any symbol.
-/

namespace SharpTokens.Json

open Text

/-! ### Strings

A string is read in two steps: into pieces, and from pieces into bytes, where halves of pairs are
put together. That bytes make a text is checked at the end. -/

/-- A piece of a string: a byte as it stands, or a code unit that is written as an escape. -/
inductive Piece where
  | byte (b : UInt8)
  | unit (n : Nat)
  deriving DecidableEq, Repr

def shortEscape? (b : UInt8) : Option UInt8 :=
  if b = byte '"' || b = byte '\\' || b = byte '/' then some b
  else if b = byte 'b' then some 0x08
  else if b = byte 'f' then some 0x0C
  else if b = byte 'n' then some 0x0A
  else if b = byte 'r' then some 0x0D
  else if b = byte 't' then some 0x09
  else none

def unit? (a b c d : UInt8) : Option Nat := do
  return (((← hexValue? a) * 16 + (← hexValue? b)) * 16 + (← hexValue? c)) * 16 + (← hexValue? d)

/-- The pieces of a string after its opening quote, behind those found before, and what follows its
closing one. Control characters have to be escaped. -/
def readPieces : Bytes → Array Piece → Option (Array Piece × Bytes)
  | [], _ => none
  | b :: rest, found =>
    if b = byte '"' then some (found, rest)
    else if b = byte '\\' then
      match rest with
      | [] => none
      | e :: rest =>
        if e = byte 'u' then
          match rest with
          | h₁ :: h₂ :: h₃ :: h₄ :: rest =>
            match unit? h₁ h₂ h₃ h₄ with
            | some n => readPieces rest (found.push (.unit n))
            | none => none
          | _ => none
        else
          match shortEscape? e with
          | some c => readPieces rest (found.push (.byte c))
          | none => none
    else if b < 0x20 then none
    else readPieces rest (found.push (.byte b))

/-- The bytes that pieces stand for, behind those found before. A code unit of a pair has to be with
the other one. -/
def pieceBytes? : List Piece → Array UInt8 → Option (Array UInt8)
  | [], found => some found
  | .byte b :: rest, found => pieceBytes? rest (found.push b)
  | .unit n :: rest, found =>
    if 0xDC00 ≤ n ∧ n ≤ 0xDFFF then none
    else if 0xD800 ≤ n ∧ n ≤ 0xDBFF then
      match rest with
      | .unit m :: rest =>
        if 0xDC00 ≤ m ∧ m ≤ 0xDFFF then
          pieceBytes? rest
            (found ++ String.utf8EncodeChar (.ofNat ((n - 0xD800) * 0x400 +
              (m - 0xDC00) + 0x10000)))
        else none
      | _ => none
    else pieceBytes? rest (found ++ String.utf8EncodeChar (.ofNat n))

def pieceText? (pieces : Array Piece) : Option String :=
  (pieceBytes? pieces.toList #[]).bind fun bytes => decodeUtf8? bytes.toList

/-! ### Numbers

Only natural numbers are told apart. All others are numbers without a value. -/

def digits? (bytes : Bytes) : Option (Bytes × Bytes) :=
  if bytes.head?.any isDigit then some (bytes.span isDigit) else none

def decimal (digits : Bytes) : Nat := digits.foldl (fun n b => 10 * n + (b - byte '0').toNat) 0

/-- The digits before a point: a zero stands alone. -/
def integerPart? (bytes : Bytes) : Option (Bytes × Bytes) :=
  match bytes with
  | b :: rest =>
    if b = byte '0' then
      if rest.head?.any isDigit then none else some ([b], rest)
    else digits? bytes
  | [] => none

/-- What follows a point and digits; if there is no point, all of it. -/
def pastFraction? (bytes : Bytes) : Option Bytes :=
  match bytes with
  | b :: rest => if b = byte '.' then (digits? rest).map (·.2) else some bytes
  | [] => some []

def pastSign (bytes : Bytes) : Bytes :=
  match bytes with
  | b :: rest => if b = byte '+' || b = byte '-' then rest else bytes
  | [] => []

/-- What follows an exponent; if there is none, all of it. -/
def pastExponent? (bytes : Bytes) : Option Bytes :=
  match bytes with
  | b :: rest =>
    if b = byte 'e' || b = byte 'E' then (digits? (pastSign rest)).map (·.2) else some bytes
  | [] => some []

def goesOn (bytes : Bytes) : Bool :=
  bytes.head?.any fun b => b == byte '.' || b == byte 'e' || b == byte 'E'

def unsigned? (bytes : Bytes) : Option (Json × Bytes) := do
  let (digits, rest) ← integerPart? bytes
  if goesOn rest then
    return (.otherNumber, ← (pastFraction? rest).bind pastExponent?)
  return (.natural (decimal digits), rest)

def number? (bytes : Bytes) : Option (Json × Bytes) :=
  match bytes with
  | b :: rest =>
    if b = byte '-' then (unsigned? rest).map fun found => (.otherNumber, found.2)
    else unsigned? bytes
  | [] => none

/-! ### Values

A bound on the calls in a row makes the recursion structural; each call takes a byte or leads to one
that does. -/

def pastSpace (bytes : Bytes) : Bytes := bytes.dropWhile isSpace

def pastWord? (word : Bytes) (bytes : Bytes) : Option Bytes :=
  if word.isPrefixOf bytes then some (bytes.drop word.length) else none

/-- What follows a symbol and the space before it, if it is there. -/
def pastSymbol? (c : Char) (bytes : Bytes) : Option Bytes :=
  match pastSpace bytes with
  | b :: rest => if b = byte c then some rest else none
  | [] => none

def string? (bytes : Bytes) : Option (Option String × Bytes) :=
  (readPieces bytes #[]).map fun found => (pieceText? found.1, found.2)

mutual

/-- A value and what follows it. `n` bounds the calls in a row. -/
def value? : (n : Nat) → Bytes → Option (Json × Bytes)
  | 0, _ => none
  | n + 1, bytes =>
    match pastSpace bytes with
    | [] => none
    | b :: rest =>
      if b = byte '"' then
        (string? rest).map fun found => ((found.1.map Json.text).getD .garbled, found.2)
      else if b = byte '[' then
        match pastSymbol? ']' rest with
        | some past => some (.array [], past)
        | none => items? n rest #[]
      else if b = byte '\x7b' then
        match pastSymbol? '\x7d' rest with
        | some past => some (.object [], past)
        | none => members? n rest #[]
      else if b = byte 'n' then (pastWord? (ascii "ull") rest).map fun past => (.null, past)
      else if b = byte 't' then (pastWord? (ascii "rue") rest).map fun past => (.bool true, past)
      else if b = byte 'f' then (pastWord? (ascii "alse") rest).map fun past => (.bool false, past)
      else number? (b :: rest)

/-- The items of an array, of which there is at least one more, behind those found before. -/
def items? : (n : Nat) → Bytes → Array Json → Option (Json × Bytes)
  | 0, _, _ => none
  | n + 1, bytes, found =>
    match value? n bytes with
    | none => none
    | some (item, rest) =>
      match pastSymbol? ',' rest with
      | some rest => items? n rest (found.push item)
      | none => (pastSymbol? ']' rest).map fun past => (.array (found.push item).toList, past)

/-- The members of an object, of which there is at least one more, behind those found before. -/
def members? : (n : Nat) → Bytes → Array (Option String × Json) → Option (Json × Bytes)
  | 0, _, _ => none
  | n + 1, bytes, found =>
    match (pastSymbol? '"' bytes).bind string? with
    | none => none
    | some (key, rest) =>
      match (pastSymbol? ':' rest).bind (value? n) with
      | none => none
      | some (item, rest) =>
        match pastSymbol? ',' rest with
        | some rest => members? n rest (found.push (key, item))
        | none =>
          (pastSymbol? '\x7d' rest).map fun past => (.object (found.push (key, item)).toList, past)

end

/-- The value that bytes are, with nothing but space around it. A call takes a byte or leads to one
that does, so two for each byte are enough. -/
def parse? (bytes : Bytes) : Option Json :=
  match value? (2 * bytes.length + 2) bytes with
  | some (json, rest) => if (pastSpace rest).isEmpty then some json else none
  | none => none

/-! ### Looking into values -/

def asText? : Json → Option String
  | .text s => some s
  | _ => none

def asArray? : Json → Option (List Json)
  | .array items => some items
  | _ => none

def asWord? : Json → Option UInt32
  | .natural n => if n < UInt32.size then some n.toUInt32 else none
  | _ => none

/-- What a record of the fields `names` has in them, by their order: an object has each at most
once, among others that do not matter, and an array has the first of them. No key of the object may
be garbled. -/
def fields? (names : List String) : Json → Option (List (Option Json))
  | .object members =>
    if members.any (·.1.isNone) then none
    else
      names.mapM fun name =>
        match members.filter (·.1 == some name) with
        | [] => some none
        | [member] => some (some member.2)
        | _ => none
  | .array items =>
    if items.length ≤ names.length then
      some (items.map some ++ List.replicate (names.length - items.length) none)
    else none
  | _ => none

end SharpTokens.Json
