import SharpTokens.Channel.Frame

/-!
# Streams that are read

What a stream will yield is a list of arrivals, of which some only put the reader off, and how it
ends. A frame is read with as many reads as it takes: first its length, then its payload. Reading
the stream anew goes on from where the last reading left it, also after an error.

A stream that is silent at its end never lets its reader go. So readers give an option, where
nothing stands for never coming back.
-/

namespace SharpTokens

inductive Arrival where
  /-- bytes that can be read at once, in part or whole -/
  | bytes (bs : Bytes)
  /-- a read that yields nothing and has to be made again -/
  | interrupted
  /-- a wait of some milliseconds -/
  | delay (ms : Nat)
  deriving DecidableEq, Repr

inductive Ending where
  /-- there are no more bytes -/
  | closed
  /-- every further read fails -/
  | refused
  /-- a further read never comes back -/
  | silent
  deriving DecidableEq, Repr

structure Source where
  arrivals : List Arrival
  ending : Ending
  deriving DecidableEq, Repr

/-- The result of reading a frame: its payload, nothing where the stream ends between frames, or an
error. -/
abbrev FrameResult := Except FrameError (Option Bytes)

namespace Source

def ofBytes (bytes : Bytes) : Source := ⟨[.bytes bytes], .closed⟩

def size (s : Source) : Nat :=
  s.arrivals.foldl (fun n a =>
    match a with
    | .bytes bs => n + bs.length
    | _ => n) 0

def putBack (bytes : Bytes) (rest : List Arrival) : List Arrival :=
  if bytes.isEmpty then rest else .bytes bytes :: rest

/-- Reads until there are `want` bytes or no more, behind those read before, and leaves the rest. -/
def fill (want : Nat) (got : Array UInt8) : List Arrival → Array UInt8 × List Arrival
  | [] => (got, [])
  | .interrupted :: rest => fill want got rest
  | .delay _ :: rest => fill want got rest
  | .bytes bs :: rest =>
    let missing := want - got.size
    if bs.length < missing then fill want (got ++ bs) rest
    else (got ++ bs.take missing, putBack (bs.drop missing) rest)

inductive Filled where
  /-- there were as many -/
  | full (bytes : Bytes)
  /-- the stream ended before, after so many -/
  | short (received : Nat)
  /-- a read failed -/
  | failed
  /-- a read did not come back -/
  | stuck

def readFull (s : Source) (want : Nat) : Filled × Source :=
  let (got, rest) := fill want #[] s.arrivals
  let filled : Filled :=
    if want ≤ got.size then .full got.toList
    else
      match s.ending with
      | .closed => .short got.size
      | .refused => .failed
      | .silent => .stuck
  (filled, { s with arrivals := rest })

/-- Reads a frame. There is no result if the reader never comes back. -/
def readFrame (limit : Nat) (s : Source) : Option FrameResult × Source :=
  match s.readFull 4 with
  | (.stuck, s) => (none, s)
  | (.failed, s) => (some (.error (.io .read)), s)
  | (.short received, s) =>
    (some (if received = 0 then .ok none else .error (.truncated 4 received)), s)
  | (.full bytes, s) =>
    match Frame.checkLength limit bytes with
    | .error e => (some (.error e), s)
    | .ok length =>
      match s.readFull length with
      | (.stuck, s) => (none, s)
      | (.failed, s) => (some (.error (.io .read)), s)
      | (.short received, s) => (some (.error (.truncated length received)), s)
      | (.full payload, s) => (some (.ok (some payload)), s)

end Source

end SharpTokens
