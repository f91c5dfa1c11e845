import SharpTokens.Channel.Assembly
import SharpTokens.Channel.Codec
import SharpTokens.Channel.Sink
import SharpTokens.Engine

/-!
# Servers

A server answers requests one after another until its peer closes the channel. Every request that
arrives in a frame is answered, whatever is in it. Only a broken channel ends a server early,
because after that nothing tells where a frame starts.

The server is a function of the bytes that it takes. `feed` takes them one by one and answers as
soon as a request is complete, so it does not matter in which portions they arrive. What was
answered, and how often with an error, is counted when the answer has been written.

An answer may be too long for a frame. Then the reason is sent instead, and if that is too long as
well, a fixed text; only where that does not fit does the server end.
-/

namespace SharpTokens

inductive ServeError where
  | read (e : FrameError)
  | write (e : FrameError)
  deriving DecidableEq, Repr

def ServeError.message : ServeError → String
  | .read e => "failed to read request: " ++ e.message
  | .write e => "failed to write response: " ++ e.message

/-- How many requests were answered, and how many of these with an error. -/
structure Served where
  requests : Nat
  degraded : Nat
  deriving DecidableEq, Repr

structure Server (α : Type) where
  engine : Engine α
  limit : Nat

/-- What a server is at: the frame that is coming in, the answers so far, and where they go. -/
structure Serving where
  assembly : Assembly
  served : Served
  sink : Sink

def Serving.initial (sink : Sink) : Serving := ⟨.fresh, ⟨0, 0⟩, sink⟩

namespace Server

variable {α : Type}

/-- The server without a legend to check answers against. -/
def codec (s : Server α) : Codec := ⟨s.limit, none⟩

def respond (s : Server α) (payload : Bytes) : Response :=
  match Codec.decodeRequest payload with
  | .ok source => s.engine.respond source
  | .error e => .degraded e.message

/-- Said where even the reason why an answer fits no frame fits none. -/
def tooLongToSay : String := "response exceeds the frame limit"

/-- The frame that says why an answer fits none. -/
def apology (s : Server α) (reason : FrameError) : Except FrameError Bytes :=
  match s.codec.encodeResponse (.degraded reason.message) with
  | .ok frame => .ok frame
  | .error _ => s.codec.encodeResponse (.degraded tooLongToSay)

/-- The frame of the answer to a payload, and whether it says that something failed. -/
def answer (s : Server α) (payload : Bytes) : Except FrameError (Bytes × Bool) :=
  let response := s.respond payload
  match s.codec.encodeResponse response with
  | .ok frame => .ok (frame, response.isDegraded)
  | .error e => (s.apology e).map fun frame => (frame, true)

/-- Answers a payload that came in. -/
def reply (s : Server α) (state : Serving) (payload : Bytes) : Except FrameError Unit × Serving :=
  match s.answer payload with
  | .error e => (.error e, { state with assembly := .fresh })
  | .ok (frame, degraded) =>
    match state.sink.write frame with
    | (.error e, sink) => (.error e, { state with assembly := .fresh, sink })
    | (.ok (), sink) =>
      (.ok (), ⟨.fresh, ⟨state.served.requests + 1, state.served.degraded + degraded.toNat⟩, sink⟩)

/-- What bytes lead to: the server goes on, or it ends before the bytes in `unread`. -/
structure Fed where
  state : Serving
  failure : Option ServeError
  unread : Bytes

/-- Takes bytes as they come and answers each request as soon as it is there. -/
def feed (s : Server α) (state : Serving) : Bytes → Fed
  | [] => ⟨state, none, []⟩
  | b :: bs =>
    match state.assembly.push s.limit b with
    | .more assembly => feed s { state with assembly } bs
    | .done (.error e) => ⟨state, some (.read e), bs⟩
    | .done (.ok payload) =>
      match s.reply state payload with
      | (.ok (), state) => feed s state bs
      | (.error e, state) => ⟨state, some (.write e), bs⟩

def finish (state : Serving) : Except ServeError Served :=
  match state.assembly.atEnd with
  | .ok _ => .ok state.served
  | .error e => .error (.read e)

/-- Serves what arrives, up to its end. There is no result if it never ends. -/
def serveFrom (s : Server α) (ending : Ending) (state : Serving) :
    List Arrival → Option (Except ServeError Served) × Serving × List Arrival
  | [] =>
    match ending with
    | .closed => (some (finish state), state, [])
    | .refused => (some (.error (.read (.io .read))), state, [])
    | .silent => (none, state, [])
  | .bytes bs :: rest =>
    let fed := s.feed state bs
    match fed.failure with
    | none => serveFrom s ending fed.state rest
    | some e => (some (.error e), fed.state, Source.putBack fed.unread rest)
  | _ :: rest => serveFrom s ending state rest

/-- Serves a stream, and gives the result, the sink and what was not read. -/
def serve (s : Server α) (source : Source) (sink : Sink) :
    Option (Except ServeError Served) × Sink × Source :=
  let (result, state, arrivals) := s.serveFrom source.ending (.initial sink) source.arrivals
  (result, state.sink, { source with arrivals })

end Server

end SharpTokens
