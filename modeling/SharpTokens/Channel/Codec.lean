import SharpTokens.Channel.Source
import SharpTokens.Token.Response

/-!
# Requests and answers in frames

The payload of a request is a source text, and that of an answer is JSON. With a legend at hand, an
answer is checked against it.
-/

namespace SharpTokens

/-- The limit on frames, and the legend that answers are checked against, if any. -/
structure Codec where
  limit : Nat
  legend : Option Legend

namespace Codec

/-- The frame of a request. There is none for an empty text. -/
def encodeRequest (c : Codec) (source : String) : Except FrameError Bytes :=
  Frame.encode c.limit (Text.encodeUtf8 source)

def decodeRequest (payload : Bytes) : Except FrameError String :=
  match Text.decodeUtf8? payload with
  | some source => .ok source
  | none => .error .invalidUtf8

def encodeResponse (c : Codec) (r : Response) : Except FrameError Bytes :=
  Frame.encode c.limit r.render

/-- The error about the first of some tokens that is not in terms of a legend, the first of them at
`index`. -/
def strayToken? (l : Legend) (index : Nat) : List Token → Option FrameError
  | [] => none
  | t :: rest =>
    if l.containsType t.type && l.containsModifiers t.modifiers then strayToken? l (index + 1) rest
    else some (.outOfLegend index t.type t.modifiers)

def decodeResponse (c : Codec) (payload : Bytes) : Except FrameError Response :=
  match Response.parse? payload with
  | none => .error .malformed
  | some r =>
    match c.legend.bind fun l => strayToken? l 0 r.tokens with
    | some e => .error e
    | none => .ok r

/-! ### From a stream

Requests and answers are read alike, and differ in what is made of the payload. -/

/-- What is in the next frame of a stream. A stream that has none is cut short. -/
def readWith {β : Type} (c : Codec) (decode : Bytes → Except FrameError β) (s : Source) :
    Option (Except FrameError β) × Source :=
  match s.readFrame c.limit with
  | (none, s) => (none, s)
  | (some (.error e), s) => (some (.error e), s)
  | (some (.ok none), s) => (some (.error (.truncated 4 0)), s)
  | (some (.ok (some payload)), s) => (some (decode payload), s)

def readRequest (c : Codec) (s : Source) : Option (Except FrameError String) × Source :=
  c.readWith decodeRequest s

def readResponse (c : Codec) (s : Source) : Option (Except FrameError Response) × Source :=
  c.readWith c.decodeResponse s

end Codec

end SharpTokens
