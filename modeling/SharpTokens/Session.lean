import SharpTokens.Client
import SharpTokens.Server

/-!
# Sessions

A client and a server at the two ends of a channel. What the client sends, the server takes at once;
what the server answers, the client finds when it reads. A server that ended closes the channel.

A session has no time: what the server answers is there before the client looks for it. So a client
that waits for nothing is stuck, or gives up if it has a deadline.
-/

namespace SharpTokens

/-- A client, a server, and what is under way from the server to the client. -/
structure Session (α : Type) where
  client : Client
  server : Server α
  serving : Serving
  failure : Option ServeError
  coming : List Arrival

namespace Session

variable {α : Type}

def initial (client : Client) (server : Server α) : Session α :=
  ⟨client, server, .initial (.ofRoom none), none, []⟩

/-- The server takes bytes and answers, unless it ended before. -/
def deliver (s : Session α) (bytes : Bytes) : Session α :=
  if s.failure.isSome then s
  else
    let fed := s.server.feed { s.serving with sink := .ofRoom none } bytes
    { s with
      serving := fed.state
      failure := fed.failure
      coming := s.coming ++ [.bytes fed.state.sink.bytes] }

def source (s : Session α) : Source :=
  ⟨s.coming, if s.failure.isSome then .closed else .silent⟩

def tokenize (s : Session α) (text : String) : Client.Reply Response × Session α :=
  match s.client.start text with
  | (.over result, client) => (.result result, { s with client })
  | (.request frame, client) =>
    let s := { s with client }.deliver frame
    match s.source.awaitFrame client.codec.limit client.timeout with
    | (.stuck, source) => (.stuck, { s with coming := source.arrivals })
    | (.expired, source) => (client.giveUp none, { s with coming := source.arrivals })
    | (.done received, source) =>
      let result := client.interpret received
      (.result result, { s with client := client.settle result, coming := source.arrivals })

def semanticTokens (s : Session α) (text : String) : Client.Reply (List UInt32) × Session α :=
  let (reply, s) := s.tokenize text
  (reply.andThen Client.relative, s)

/-- The client hangs up, and the server ends if it did not before. -/
def close (s : Session α) : Except ServeError Served :=
  match s.failure with
  | some e => .error e
  | none => Server.finish s.serving

end Session

end SharpTokens
