import SharpTokens.Channel.Source

/-!
# Frames put together byte by byte

A reader that cannot wait takes bytes as they come, and keeps what it has of a frame until there is
all of it. The result is the same as that of reading the frame in one go.

Waiting is up to a deadline, in terms of the delays that a stream announces. When it passes, the
part of a frame that had arrived is lost, which is why a client does not go on after it.
-/

namespace SharpTokens

/-- What there is of a frame: some bytes of its length, or its length and some bytes of its
payload. -/
inductive Assembly where
  | header (got : Array UInt8)
  | body (length : Nat) (got : Array UInt8)
  deriving DecidableEq, Repr

namespace Assembly

def fresh : Assembly := .header #[]

/-- What a byte leads to: part of a frame, or the end of one. -/
inductive Pushed where
  | more (a : Assembly)
  | done (result : Except FrameError Bytes)

def push (limit : Nat) : Assembly → UInt8 → Pushed
  | .header got, b =>
    let got := got.push b
    if got.size < 4 then .more (.header got)
    else
      match Frame.checkLength limit got.toList with
      | .ok length => .more (.body length #[])
      | .error e => .done (.error e)
  | .body length got, b =>
    let got := got.push b
    if got.size < length then .more (.body length got) else .done (.ok got.toList)

/-- What bytes lead to: part of a frame, or the end of one before the bytes in `rest`. -/
inductive Fed where
  | more (a : Assembly)
  | done (result : Except FrameError Bytes) (rest : Bytes)

def feed (limit : Nat) (a : Assembly) : Bytes → Fed
  | [] => .more a
  | b :: bs =>
    match a.push limit b with
    | .more a => feed limit a bs
    | .done result => .done result bs

def atEnd : Assembly → FrameResult
  | .header got => if got.isEmpty then .ok none else .error (.truncated 4 got.size)
  | .body length got => .error (.truncated length got.size)

end Assembly

inductive Awaited where
  | done (result : FrameResult)
  /-- the time was over before -/
  | expired
  /-- it never comes -/
  | stuck

def isPast (deadline : Option Nat) (instant : Nat) : Bool := deadline.any (· < instant)

namespace Source

/-- Waits for a frame of which `a` is there already, `elapsed` milliseconds after the start and up
to a deadline. What arrives just then still counts. -/
def awaitFrom (limit : Nat) (deadline : Option Nat) (ending : Ending) :
    (elapsed : Nat) → Assembly → List Arrival → Awaited × List Arrival
  | _, a, [] =>
    match ending with
    | .closed => (.done a.atEnd, [])
    | .refused => (.done (.error (.io .read)), [])
    | .silent => (if deadline.isSome then .expired else .stuck, [])
  | elapsed, a, .interrupted :: rest => awaitFrom limit deadline ending elapsed a rest
  | elapsed, a, .delay ms :: rest =>
    if isPast deadline (elapsed + ms) then (.expired, .delay ms :: rest)
    else awaitFrom limit deadline ending (elapsed + ms) a rest
  | elapsed, a, .bytes bs :: rest =>
    match a.feed limit bs with
    | .more a => awaitFrom limit deadline ending elapsed a rest
    | .done result left => (.done (result.map some), putBack left rest)

def awaitFrame (limit : Nat) (deadline : Option Nat) (s : Source) : Awaited × Source :=
  let (awaited, arrivals) := awaitFrom limit deadline s.ending 0 .fresh s.arrivals
  (awaited, { s with arrivals })

end Source

end SharpTokens
