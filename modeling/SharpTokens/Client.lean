import SharpTokens.Channel.Assembly
import SharpTokens.Channel.Codec
import SharpTokens.Channel.Sink
import SharpTokens.Token.Deltas

/-!
# Clients

A client sends a source text and waits for the answer, one after another. A failure that may leave
the channel in the middle of a frame closes the client for good, and so does a caller that does not
wait for the answer.
-/

namespace SharpTokens

/-! ### Errors

A call fails in the channel, in what is made of its answer, in time, or because an earlier call did.
-/

/-- A time in milliseconds for a reader: in milliseconds below a second, in seconds from there
on. -/
def durationText (ms : Nat) : String :=
  if ms = 0 then "0ns"
  else if ms < 1000 then toString ms ++ "ms"
  else
    let thousandths := ms % 1000
    let digits := [thousandths / 100, thousandths / 10 % 10, thousandths % 10]
    let kept := (digits.reverse.dropWhile (· == 0)).reverse
    toString (ms / 1000) ++ (if kept.isEmpty then ""
      else "." ++ String.join (kept.map toString)) ++ "s"

inductive ClientError where
  | frame (e : FrameError)
  | delta (e : DeltaError)
  | timeout (ms : Nat)
  /-- the other end closed the channel between frames -/
  | disconnected
  /-- an earlier failure closed the client -/
  | closed
  deriving DecidableEq, Repr

namespace ClientError

def message : ClientError → String
  | .frame e => e.message
  | .delta e => e.message
  | .timeout ms => "no response within " ++ durationText ms
  | .disconnected => "server closed the channel"
  | .closed => "channel is closed"

/-- Whether the channel is between frames after the error. -/
def isRecoverable : ClientError → Bool
  | .frame e => !e.isFatal
  | _ => false

end ClientError

/-! ### Clients

A call has a start and an end, which are functions of their own. What happens between them is up to
the channel, so the same two are used whatever the channel is. -/

/-- One end of a channel: how frames are read, how long an answer is waited for, and whether the
client is closed. -/
structure Client where
  codec : Codec
  timeout : Option Nat
  closed : Bool

def Client.defaultTimeout : Nat := 5000

abbrev CallResult := Except ClientError Response

namespace Client

/-- How a call starts: it is over at once, or a request is to be sent. -/
inductive Start where
  | over (result : CallResult)
  | request (frame : Bytes)

/-- Starts a call. The empty text has no request, but an answer all the same. While the answer is
waited for, the client counts as closed. -/
def start (c : Client) (source : String) : Start × Client :=
  if c.closed then (.over (.error .closed), c)
  else if source.isEmpty then (.over (.ok (.ofTokens [])), c)
  else
    match c.codec.encodeRequest source with
    | .error e => (.over (.error (.frame e)), c)
    | .ok frame => (.request frame, { c with closed := true })

/-- What a frame that came in, or did not, says about the call. -/
def interpret (c : Client) : FrameResult → CallResult
  | .error e => .error (.frame e)
  | .ok none => .error .disconnected
  | .ok (some payload) =>
    match c.codec.decodeResponse payload with
    | .ok r => .ok r
    | .error e => .error (.frame e)

/-- Ends a call. The client is open again if a whole frame was read. -/
def settle (c : Client) (result : CallResult) : Client :=
  match result with
  | .ok _ => { c with closed := false }
  | .error e => { c with closed := !e.isRecoverable }

/-! ### Calls

A call over a stream that is known beforehand. There are two deadlines, the client's own and that of
the caller, and the sooner one counts. -/

structure Wire where
  source : Source
  sink : Sink

inductive Reply (β : Type) where
  | result (r : Except ClientError β)
  /-- the caller stopped waiting -/
  | abandoned
  /-- the call never ends -/
  | stuck
  deriving Repr

namespace Reply

def andThen {β γ : Type} (f : β → Except ClientError γ) : Reply β → Reply γ
  | .result r => .result (r.bind f)
  | .abandoned => .abandoned
  | .stuck => .stuck

end Reply

def sooner : Option Nat → Option Nat → Option Nat
  | some a, some b => some (min a b)
  | some a, none => some a
  | none, b => b

/-- Who stops waiting first: the client, unless the patience of the caller is shorter. -/
def giveUp (c : Client) (patience : Option Nat) : Reply Response :=
  match c.timeout, patience with
  | some limit, some p => if limit ≤ p then .result (.error (.timeout limit)) else .abandoned
  | some limit, none => .result (.error (.timeout limit))
  | none, _ => .abandoned

/-- Asks for the tokens of a text. The caller waits as long as its patience lasts. -/
def tokenize (c : Client) (wire : Wire) (source : String) (patience : Option Nat) :
    Reply Response × Client × Wire :=
  match c.start source with
  | (.over result, c) => (.result result, c, wire)
  | (.request frame, c) =>
    match wire.sink.write frame with
    | (.error e, sink) => (.result (.error (.frame e)), c, { wire with sink })
    | (.ok (), sink) =>
      match wire.source.awaitFrame c.codec.limit (sooner c.timeout patience) with
      | (.stuck, source) => (.stuck, c, ⟨source, sink⟩)
      | (.expired, source) => (c.giveUp patience, c, ⟨source, sink⟩)
      | (.done frame, source) =>
        let result := c.interpret frame
        (.result result, c.settle result, ⟨source, sink⟩)

def relative (r : Response) : Except ClientError (List UInt32) :=
  match Deltas.encode r.tokens with
  | .ok data => .ok data
  | .error e => .error (.delta e)

def semanticTokens (c : Client) (wire : Wire) (source : String) (patience : Option Nat) :
    Reply (List UInt32) × Client × Wire :=
  let (reply, c, wire) := c.tokenize wire source patience
  (reply.andThen relative, c, wire)

end Client

end SharpTokens
