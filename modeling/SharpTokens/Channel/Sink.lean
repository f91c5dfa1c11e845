import SharpTokens.Channel.Frame

/-!
# Streams that are written

A sink takes bytes until it is full, if it ever is. What was taken before a refusal stays.
-/

namespace SharpTokens

/-- A stream that is written to: what it took, and how many bytes more it takes, if that is
limited. -/
structure Sink where
  taken : Array UInt8
  room : Option Nat
  deriving DecidableEq, Repr

namespace Sink

def ofRoom (room : Option Nat) : Sink := ⟨#[], room⟩

def bytes (s : Sink) : Bytes := s.taken.toList

/-- Writes bytes, all of them or as many as there is room for. -/
def write (s : Sink) (bytes : Bytes) : Except FrameError Unit × Sink :=
  match s.room with
  | none => (.ok (), ⟨s.taken ++ bytes, none⟩)
  | some room =>
    if bytes.length ≤ room then (.ok (), ⟨s.taken ++ bytes, some (room - bytes.length)⟩)
    else (.error (.io .write), ⟨s.taken ++ bytes.take room, some 0⟩)

/-- Writes a payload in a frame. One that may not be sent leaves the sink as it is. -/
def writeFrame (limit : Nat) (s : Sink) (payload : Bytes) : Except FrameError Unit × Sink :=
  match Frame.encode limit payload with
  | .ok frame => s.write frame
  | .error e => (.error e, s)

end Sink

end SharpTokens
