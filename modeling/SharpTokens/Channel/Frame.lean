import SharpTokens.Text.Utf8

/-!
# Frames

Everything on a channel travels in frames: four bytes with the length of the payload, the lowest
byte first, and then the payload. The length is a signed number and has to be positive; both ends
have a limit on it.
-/

namespace SharpTokens

inductive Refusal where
  | read | write
  deriving DecidableEq, Repr

def Refusal.message : Refusal → String
  | .read => "read refused"
  | .write => "write refused"

inductive FrameError where
  | io (reason : Refusal)
  | invalidLength (length : Int)
  | tooLarge (length max : Nat)
  | truncated (expected received : Nat)
  /-- a request that is no text -/
  | invalidUtf8
  /-- an answer that is none -/
  | malformed
  /-- an answer with a token that is not in terms of the legend -/
  | outOfLegend (index : Nat) (type modifiers : UInt32)
  deriving DecidableEq, Repr

namespace FrameError

def message : FrameError → String
  | .io reason => "i/o error: " ++ reason.message
  | .invalidLength length => "invalid frame length " ++ toString length
  | .tooLarge length max =>
      "frame length " ++ toString length ++ " exceeds maximum " ++ toString max
  | .truncated expected received =>
    "stream truncated: expected " ++ toString expected ++ " bytes, received " ++ toString received
  | .invalidUtf8 => "request payload is not valid UTF-8"
  | .malformed => "malformed response payload"
  | .outOfLegend index type modifiers =>
    "token " ++ toString index ++ " uses type " ++ toString type.toNat ++ " / modifiers 0b"
      ++ String.ofList (Nat.toDigits 2 modifiers.toNat) ++ " outside the legend"

/-- Whether the channel may be in the middle of a frame after the error. It is not if a whole frame
was read, and only what was in it is wrong. -/
def isFatal : FrameError → Bool
  | .malformed | .outOfLegend .. => false
  | _ => true

end FrameError

namespace Frame

/-! ### Limits

A limit is kept between the least one that is of use and the longest payload that a length can stand
for.
-/

/-- The longest payload that a length can stand for. -/
def maxLength : Nat := 0x7FFFFFFF

/-- The least limit that can be set. The shortest answers fit. -/
def minLimit : Nat := 64

def defaultLimit : Nat := 10000000

def clampLimit (n : Nat) : Nat := max minLimit (min n maxLength)

/-! ### Lengths

Lengths are checked before any of the payload is read. -/

/-- The bytes of a number, the lowest first. -/
def lengthBytes (n : Nat) : Bytes :=
  [n.toUInt8, (n / 0x100).toUInt8, (n / 0x10000).toUInt8, (n / 0x1000000).toUInt8]

/-- The number with these bytes, the lowest first. -/
def unsignedLength (bytes : Bytes) : Nat := bytes.foldr (fun b n => b.toNat + 256 * n) 0

def signedLength (bytes : Bytes) : Int :=
  let n := unsignedLength bytes
  if n ≤ maxLength then n else (n : Int) - 0x100000000

def checkLength (limit : Nat) (bytes : Bytes) : Except FrameError Nat :=
  let length := signedLength bytes
  if length ≤ 0 then .error (.invalidLength length)
  else if limit < length.toNat then .error (.tooLarge length.toNat limit)
  else .ok length.toNat

/-- The frame with a payload, if one may be sent. -/
def encode (limit : Nat) (payload : Bytes) : Except FrameError Bytes :=
  let length := payload.length
  if length = 0 then .error (.invalidLength 0)
  else if limit < length then .error (.tooLarge length limit)
  else if maxLength < length then .error (.tooLarge length maxLength)
  else .ok (lengthBytes length ++ payload)

end Frame

end SharpTokens
