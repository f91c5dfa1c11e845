import Mathlib.Data.List.Induction
import SharpTokens.Session
import SharpTokens.Proofs.Link.InStep
import SharpTokens.Proofs.Token.Terms

/-!
# What a client gets is what the engine answers

A client with the limit and the legend of its server gets for each text what the engine answers, or
what the server sends in its place, and for a text that no frame can hold a refusal (`Agrees`). That
is so for calls one after another in a session, and for a client and a server on streams of which
each reads what the other writes, in whatever pieces (`csharp_calls_agree`).

What is sent for a text is the engine's answer, or an excuse if that fits no frame. A client that
has the legend of the server accepts it, since all tokens of the engine are in its terms. The
remaining work is about streams: that the calls of a client and the feeding of a server come to the
same bytes, in whatever order they happen.
-/

namespace SharpTokens

open Text

/-! ## What a call is to yield

Texts that fit no frame are refused before anything is sent, and the empty text is answered without
a request. -/

/-- What a call for a text is to yield, of an engine behind a limit on frames. -/
structure Agrees {α : Type} (e : Engine α) (limit : Nat) (text : String)
    (reply : Client.Reply Response) : Prop where
  /-- A text that no frame can hold is refused. -/
  refused : limit < text.utf8ByteSize →
    reply = .result (.error (.frame (.tooLarge text.utf8ByteSize limit)))
  /-- Any other text has an answer: the engine's if it fits, and one without tokens if not. -/
  answered : text.utf8ByteSize ≤ limit → ∃ r, reply = .result (.ok r) ∧
    ((e.respond text).render.length ≤ limit → r = e.respond text) ∧
    (limit < (e.respond text).render.length → r.tokens = [] ∧ r.isDegraded = true)
  /-- The answer has a relative form. -/
  relative : text.utf8ByteSize ≤ limit → ∃ data, reply.andThen Client.relative = .result (.ok data)

namespace Server

variable {α : Type} {s : Server α}

/-- A client of a server: it has the same limit and legend, and waits as long as it takes. -/
def client (s : Server α) : Client := ⟨⟨s.limit, some s.engine.legend⟩, none, false⟩

/-- The bytes of a text are a request for this text. -/
theorem due_encodeUtf8 (text : String) : s.due (encodeUtf8 text) = s.engine.respond text := by
  rw [due, decodeUtf8?_encodeUtf8]
  rfl

/-- What is sent is what the engine answers, or says that something failed. -/
theorem sent_eq (payload : Bytes) :
    (∃ text, s.sent payload = s.engine.respond text) ∨
      ∃ reason, s.sent payload = .degraded reason := by
  rw [sent]
  split
  · rw [respond_eq_due, due]
    cases decodeUtf8? payload with
    | none => exact .inr ⟨_, rfl⟩
    | some text => exact .inl ⟨text, rfl⟩
  · exact .inr (excuse_degraded _)

/-- A client with the same legend takes what is sent. -/
theorem decodeResponse_sent (payload : Bytes) :
    s.client.codec.decodeResponse (s.sent payload).render = .ok (s.sent payload) := by
  have hcovers : ∀ t ∈ (s.sent payload).tokens, s.engine.legend.Covers t := by
    rcases s.sent_eq payload with ⟨text, h⟩ | ⟨reason, h⟩
    · rw [h]
      exact s.engine.respond_covers text
    · rw [h]
      exact List.forall_mem_nil _
  rw [Codec.decodeResponse, Response.parse?_render]
  simp only [client, Option.bind_some, Codec.strayToken?_eq_none hcovers]

/-- The tokens of an answer have a relative form, since they are in order. -/
theorem relative_sent (payload : Bytes) : ∃ data, Client.relative (s.sent payload) = .ok data := by
  have hencode : ∃ data, Deltas.encode (s.sent payload).tokens = .ok data := by
    rcases s.sent_eq payload with ⟨text, h⟩ | ⟨reason, h⟩
    · rw [h]
      exact s.engine.respond_relative text
    · rw [h]
      exact ⟨[], rfl⟩
  obtain ⟨data, hdata⟩ := hencode
  exact ⟨data, by rw [Client.relative, hdata]⟩

/-- What is sent for a text agrees with the engine. -/
theorem agrees_sent (hlimit : Frame.IsLimit s.limit) {text : String}
    (h : text.utf8ByteSize ≤ s.limit) :
    Agrees s.engine s.limit text (.result (.ok (s.sent (encodeUtf8 text)))) := by
  obtain ⟨-, -, heq, hdegraded⟩ := sent_isAnswer hlimit (encodeUtf8 text)
  rw [due_encodeUtf8] at heq hdegraded
  refine ⟨fun hlong => absurd h (Nat.not_le.2 hlong), fun _ => ⟨_, rfl, heq, hdegraded⟩,
    fun _ => ?_⟩
  obtain ⟨data, hdata⟩ := s.relative_sent (encodeUtf8 text)
  exact ⟨data, congrArg Client.Reply.result hdata⟩

/-- A text that is not sent has its result at once: it is too long, or there is nothing in it. -/
theorem start_unsent (hlimit : Frame.IsLimit s.limit) (hempty : s.engine.respond "" = .ofTokens [])
    {text : String} (h : ¬ Frame.Fits s.limit (encodeUtf8 text)) :
    ∃ result, s.client.start text = (.over result, s.client) ∧
      Agrees s.engine s.limit text (.result result) := by
  rw [Frame.Fits, length_encodeUtf8] at h
  cases Nat.lt_or_ge s.limit text.utf8ByteSize with
  | inl hlong =>
      have hne : text.isEmpty = false := by
        rw [Bool.eq_false_iff]
        intro hempty
        rw [String.isEmpty_iff.1 hempty] at hlong
        cases hlong
      have hencode : s.client.codec.encodeRequest text =
          .error (.tooLarge text.utf8ByteSize s.limit) := by
        rw [← length_encodeUtf8] at hlong ⊢
        exact Frame.encode_eq_tooLarge hlong
      refine ⟨_, ?_, fun _ => rfl, fun h => absurd h (Nat.not_le.2 hlong),
        fun h => absurd h (Nat.not_le.2 hlong)⟩
      simp only [Client.start, hne, hencode]
      rfl
  | inr hle =>
      -- the client answers for the engine here, so that must have no tokens for the empty text
      -- either
      have htext : text = "" := String.utf8ByteSize_eq_zero_iff.1 (by omega)
      subst htext
      have hshort : (Response.ofTokens []).render.length ≤ Frame.minLimit := by decide
      refine ⟨_, rfl, fun h => absurd hle (Nat.not_le.2 h),
        fun _ => ⟨_, rfl, fun _ => hempty.symm, fun h => ?_⟩,
        fun _ => ⟨[], rfl⟩⟩
      rw [hempty] at h
      exact absurd (Nat.le_trans hshort hlimit.bounds.1) (Nat.not_le.2 h)

end Server

/-! ## Calls on streams

A call writes its request and waits until the next frame is there. -/

/-- A client that waits for a frame that is there gets it, and leaves what is behind. -/
theorem awaitFrame_done {limit : Nat} (hlimit : limit ≤ Frame.maxLength) {payload rest : Bytes}
    (hfits : Frame.Fits limit payload) {stream : Source}
    (h : stream.content = Frame.ofPayload payload ++ rest) :
    ∃ left, stream.awaitFrame limit none = (.done (.ok (some payload)), left) ∧
      left.content = rest := by
  rw [← Nat.min_eq_left hlimit] at hfits
  obtain ⟨left, hawait, hcontent, -⟩ := (Source.readsAs_frame hfits h).awaitFrame
  exact ⟨left, hawait, hcontent⟩

namespace Server

variable {α : Type} {s : Server α}

/-- A client that gets what its server sent is as before. -/
theorem interpret_sent (payload : Bytes) :
    Client.interpret { s.client with closed := true } (.ok (some (s.sent payload).render)) =
      .ok (s.sent payload) := by
  rw [Client.interpret]
  simp only [s.decodeResponse_sent payload]

/-- A call for a text that is sent writes its frame, whatever becomes of it. -/
theorem tokenize_writes (hlimit : Frame.IsLimit s.limit) {text : String}
    (hfits : Frame.Fits s.limit (encodeUtf8 text)) {wire : Client.Wire}
    (hsink : wire.sink.room = none) :
    (s.client.tokenize wire text none).2.2.sink.bytes =
      wire.sink.bytes ++ Frame.ofPayload (encodeUtf8 text) := by
  rw [Client.tokenize, Client.start_of_fits rfl hlimit.bounds.2 hfits]
  simp only [Sink.write, hsink]
  split
  all_goals simp [Sink.bytes]

/-- **A call for a text that is sent yields what the server sends**, if that is next in the
stream. -/
theorem tokenize_sent (hlimit : Frame.IsLimit s.limit) {text : String}
    (hfits : Frame.Fits s.limit (encodeUtf8 text)) {wire : Client.Wire}
    (hsink : wire.sink.room = none) {rest : Bytes}
    (hcontent : wire.source.content = s.answerFrame (encodeUtf8 text) ++ rest) :
    ∃ left, s.client.tokenize wire text none = (.result (.ok (s.sent (encodeUtf8 text))), s.client,
      ⟨left, ⟨wire.sink.taken ++ Frame.ofPayload (encodeUtf8 text), none⟩⟩) ∧
      left.content = rest := by
  obtain ⟨left, hawait, hleft⟩ := awaitFrame_done hlimit.bounds.2
    (sent_fits hlimit (encodeUtf8 text)) hcontent
  refine ⟨left, ?_, hleft⟩
  rw [Client.tokenize, Client.start_of_fits rfl hlimit.bounds.2 hfits]
  have hawait : wire.source.awaitFrame s.client.codec.limit
      (Client.sooner s.client.timeout none) = _ := hawait
  simp only [Sink.write, hsink, hawait, interpret_sent]
  rfl

end Server

/-! ## Calls one after another

By induction on the texts: each call leaves the client open and the streams behind its own frames.
-/

def Client.converse (c : Client) (wire : Client.Wire) :
    List String → List (Client.Reply Response) × Client × Client.Wire
  | [] => ([], c, wire)
  | text :: texts =>
    let call := c.tokenize wire text none
    let others := converse call.2.1 call.2.2 texts
    (call.1 :: others.1, others.2)

namespace Client

/-- Calls for some texts and then for others. -/
theorem converse_append (c : Client) (wire : Wire) (texts more : List String) :
    (c.converse wire (texts ++ more)).2 =
      ((c.converse wire texts).2.1.converse (c.converse wire texts).2.2 more).2 := by
  induction texts generalizing c wire with
  | nil => rfl
  | cons text texts ih => exact ih _ _

/-- What was written stays. -/
theorem converse_writes (c : Client) (wire : Wire) (texts : List String) :
    ∃ more, (c.converse wire texts).2.2.sink.bytes = wire.sink.bytes ++ more := by
  induction texts generalizing c wire with
  | nil => exact ⟨[], (List.append_nil _).symm⟩
  | cons text texts ih =>
      obtain ⟨ks, -, -, hbytes, -⟩ := Caller.tokenize_onStreams c wire text none []
      obtain ⟨more, hmore⟩ := ih (c.tokenize wire text none).2.1 (c.tokenize wire text none).2.2
      refine ⟨ks.flatMap Passage.sent ++ more, ?_⟩
      rw [← List.append_assoc, ← hbytes]
      exact hmore

end Client

/-- The payloads that are sent for some texts: those that fit a frame. -/
def payloads (limit : Nat) (texts : List String) : List Bytes :=
  (texts.map encodeUtf8).filter fun p => decide (Frame.Fits limit p)

/-- A text that fits is sent. -/
theorem payloads_cons_of_fits {limit : Nat} {text : String} (h : Frame.Fits limit (encodeUtf8 text))
    (texts : List String) : payloads limit (text :: texts) = encodeUtf8 text ::
    payloads limit texts := by
  rw [payloads, List.map_cons, List.filter_cons, if_pos (decide_eq_true h), payloads]

/-- Another one is not. -/
theorem payloads_cons_of_not_fits {limit : Nat} {text : String}
    (h : ¬ Frame.Fits limit (encodeUtf8 text)) (texts : List String) :
    payloads limit (text :: texts) = payloads limit texts := by
  rw [payloads, List.map_cons, List.filter_cons, if_neg (by simpa using h), payloads]

theorem payloads_append (limit : Nat) (texts more : List String) :
    payloads limit (texts ++ more) = payloads limit texts ++ payloads limit more := by
  rw [payloads, List.map_append, List.filter_append, payloads, payloads]

theorem fits_of_mem_payloads {limit : Nat} {texts : List String} :
    ∀ p ∈ payloads limit texts, Frame.Fits limit p := by
  intro p hp
  exact of_decide_eq_true (List.mem_filter.1 hp).2

namespace Server

variable {α : Type} {s : Server α}

/-- **Calls agree with the engine**, one after another, if the answers to all that is sent are in
the stream. -/
theorem converse_agrees (hlimit : Frame.IsLimit s.limit)
    (hempty : s.engine.respond "" = .ofTokens []) (texts : List String) (wire : Client.Wire)
    (hsink : wire.sink.room = none) {rest : Bytes}
    (hcontent : wire.source.content = (payloads s.limit texts).flatMap s.answerFrame ++ rest) :
    List.Forall₂ (Agrees s.engine s.limit) texts (s.client.converse wire texts).1 ∧
    (s.client.converse wire texts).2.1 = s.client ∧
    (s.client.converse wire texts).2.2.source.content = rest ∧
    (s.client.converse wire texts).2.2.sink.room = none ∧
    (s.client.converse wire texts).2.2.sink.bytes =
      wire.sink.bytes ++ (payloads s.limit texts).flatMap Frame.ofPayload := by
  induction texts generalizing wire with
  | nil => exact ⟨.nil, rfl, hcontent, hsink, (List.append_nil _).symm⟩
  | cons text texts ih =>
      by_cases hfits : Frame.Fits s.limit (encodeUtf8 text)
      · rw [payloads_cons_of_fits hfits, List.flatMap_cons, List.append_assoc] at hcontent
        rw [payloads_cons_of_fits hfits, List.flatMap_cons]
        obtain ⟨left, hcall, hleft⟩ := tokenize_sent hlimit hfits hsink hcontent
        obtain ⟨hothers, hclient, hsource, hroom, hbytes⟩ :=
          ih ⟨left, ⟨wire.sink.taken ++ Frame.ofPayload (encodeUtf8 text), none⟩⟩ rfl hleft
        have hsize : text.utf8ByteSize ≤ s.limit := length_encodeUtf8 text ▸ hfits.2
        simp only [Client.converse, hcall]
        refine ⟨.cons (agrees_sent hlimit hsize) hothers, hclient, hsource, hroom, ?_⟩
        rw [hbytes, ← List.append_assoc]
        simp [Sink.bytes]
      · -- the call is over at once and leaves both streams as they are
        rw [payloads_cons_of_not_fits hfits] at hcontent ⊢
        obtain ⟨result, hstart, hagrees⟩ := start_unsent hlimit hempty hfits
        have hcall : s.client.tokenize wire text none = (.result result, s.client, wire) := by
          rw [Client.tokenize, hstart]
        obtain ⟨hothers, hrest⟩ := ih wire hsink hcontent
        simp only [Client.converse, hcall]
        exact ⟨.cons hagrees hothers, hrest⟩

/-! ## Streams that are joined

Each side reads what the other writes, so neither can be run first. They are followed together: with
the answers to the first texts at hand the client has written one request more, and with that
request the server has written one answer more. -/

/-- Streams between a client and a server of which each reads what the other writes, in whatever
pieces. -/
structure Joined (s : Server α) (c : Client) (texts : List String)
    (requests answers : Source) : Prop where
  requests_content : requests.content = (c.converse ⟨answers, .ofRoom none⟩ texts).2.2.sink.bytes
  requests_ending : requests.ending = .closed
  answers_content : answers.content = (s.serve requests (.ofRoom none)).2.1.bytes

/-- What a server sends for bytes that start with some frames starts with the answers to these. -/
theorem serve_first (hlimit : Frame.IsLimit s.limit) {requests : Source} {ps : List Bytes}
    {more : Bytes} (hps : ∀ p ∈ ps, Frame.Fits s.limit p)
    (h : requests.content = ps.flatMap Frame.ofPayload ++ more) :
    ∃ rest, (s.serve requests (.ofRoom none)).2.1.bytes = ps.flatMap s.answerFrame ++ rest := by
  obtain ⟨others, tail, hothers, hfits, htail⟩ := Frame.exists_split s.limit more
  have hsplit : Frame.Split s.limit requests.content (ps ++ others) tail := by
    refine ⟨?_, List.forall_mem_append.2 ⟨hps, hfits⟩, htail⟩
    rw [h, hothers, List.flatMap_append, List.append_assoc]
  have haccepts : (Sink.ofRoom none).Accepts ((ps ++ others).flatMap s.answerFrame) :=
    Sink.accepts_of_unlimited rfl
  obtain ⟨hbytes, -⟩ := serve_of_split hlimit hsplit haccepts
  refine ⟨others.flatMap s.answerFrame, ?_⟩
  rw [hbytes, List.flatMap_append]
  rfl

/-- If the answers to what is sent for the first texts are in the stream, then the next request is
sent too. -/
theorem Joined.requests_first (hlimit : Frame.IsLimit s.limit)
    (hempty : s.engine.respond "" = .ofTokens []) {texts front back : List String} {text : String}
    {requests answers : Source} (h : Joined s s.client texts requests answers)
    (htexts : texts = front ++ ([text] ++ back)) (hfits : Frame.Fits s.limit (encodeUtf8 text))
    {rest : Bytes}
    (hrest : answers.content = (payloads s.limit front).flatMap s.answerFrame ++ rest) :
    ∃ more, requests.content =
      (payloads s.limit front ++ [encodeUtf8 text]).flatMap Frame.ofPayload ++ more := by
  obtain ⟨-, hclient, -, hroom, hbytes⟩ :=
    converse_agrees hlimit hempty front ⟨answers, .ofRoom none⟩ rfl hrest
  obtain ⟨more, hmore⟩ := Client.converse_writes
    (s.client.tokenize (s.client.converse ⟨answers, .ofRoom none⟩ front).2.2 text none).2.1
    (s.client.tokenize (s.client.converse ⟨answers, .ofRoom none⟩ front).2.2 text none).2.2 back
  refine ⟨more, ?_⟩
  rw [h.requests_content, htexts, Client.converse_append, hclient]
  refine hmore.trans ?_
  rw [tokenize_writes hlimit hfits hroom, hbytes, List.flatMap_append, List.flatMap_singleton]
  rfl

/-- The answers to what is sent for the first texts are in the stream, because each request is there
before its answer is waited for. -/
theorem Joined.answers_first (hlimit : Frame.IsLimit s.limit)
    (hempty : s.engine.respond "" = .ofTokens []) {texts : List String} {requests answers : Source}
    (h : Joined s s.client texts requests answers) (front back : List String)
    (htexts : texts = front ++ back) :
    ∃ rest, answers.content = (payloads s.limit front).flatMap s.answerFrame ++ rest := by
  -- Each stream is given by the other, so neither can be taken apart first. The induction adds one
  -- text at the end: the answers so far bring the client to its next request, and that brings the
  -- server to the next answer.
  induction front using List.reverseRecOn generalizing back with
  | nil => exact ⟨answers.content, rfl⟩
  | append_singleton front text ih =>
      rw [List.append_assoc] at htexts
      obtain ⟨rest, hrest⟩ := ih _ htexts
      rw [payloads_append]
      by_cases hfits : Frame.Fits s.limit (encodeUtf8 text)
      · have hps : ∀ p ∈ payloads s.limit front ++ [encodeUtf8 text], Frame.Fits s.limit p :=
          List.forall_mem_append.2 ⟨fits_of_mem_payloads, List.forall_mem_singleton.2 hfits⟩
        obtain ⟨more, hmore⟩ := h.requests_first hlimit hempty htexts hfits hrest
        rw [payloads_cons_of_fits hfits, h.answers_content]
        exact serve_first hlimit hps hmore
      · rw [payloads_cons_of_not_fits hfits]
        exact ⟨rest, by rw [hrest]; simp [payloads]⟩

/-- **All answers are in the stream**, and so all calls agree with the engine. -/
theorem Joined.agrees (hlimit : Frame.IsLimit s.limit) (hempty : s.engine.respond "" = .ofTokens [])
    {texts : List String} {requests answers : Source}
    (h : Joined s s.client texts requests answers) :
    List.Forall₂ (Agrees s.engine s.limit) texts
      (s.client.converse ⟨answers, .ofRoom none⟩ texts).1 ∧
    (s.client.converse ⟨answers, .ofRoom none⟩ texts).2.1 = s.client ∧
    requests.content = (payloads s.limit texts).flatMap Frame.ofPayload := by
  obtain ⟨rest, hrest⟩ := h.answers_first hlimit hempty texts [] (List.append_nil _).symm
  obtain ⟨hagrees, hclient, -, -, hbytes⟩ :=
    converse_agrees hlimit hempty texts ⟨answers, .ofRoom none⟩ rfl hrest
  exact ⟨hagrees, hclient, h.requests_content.trans hbytes⟩

/-- There are such streams for any texts. -/
theorem exists_joined (hlimit : Frame.IsLimit s.limit) (hempty : s.engine.respond "" = .ofTokens [])
    (texts : List String) : ∃ requests answers, Joined s s.client texts requests answers := by
  have hanswers := Source.content_ofBytes ((payloads s.limit texts).flatMap s.answerFrame)
  have hrequests := Source.content_ofBytes ((payloads s.limit texts).flatMap Frame.ofPayload)
  refine ⟨.ofBytes ((payloads s.limit texts).flatMap Frame.ofPayload),
    .ofBytes ((payloads s.limit texts).flatMap s.answerFrame), ?_, rfl, ?_⟩
  · obtain ⟨-, -, -, -, hbytes⟩ := converse_agrees hlimit hempty texts
      ⟨.ofBytes _, .ofRoom none⟩ rfl
      (hanswers.trans (List.append_nil _).symm)
    exact hrequests.trans hbytes.symm
  · have hsplit : Frame.Split s.limit (Source.ofBytes _).content (payloads s.limit texts) [] :=
      ⟨hrequests.trans (List.append_nil _).symm, fits_of_mem_payloads,
        Frame.unframed_of_short (by decide)⟩
    have haccepts : (Sink.ofRoom none).Accepts ((payloads s.limit texts).flatMap s.answerFrame) :=
      Sink.accepts_of_unlimited rfl
    exact hanswers.trans (serve_of_split hlimit hsplit haccepts).1.symm

end Server

/-! ## Sessions

In a session the server is run whenever the client has written, and what it says is kept for the
client. -/

namespace Session

variable {α : Type} {s : Server α}

def converse (session : Session α) : List String → List (Client.Reply Response) × Session α
  | [] => ([], session)
  | text :: texts =>
    let call := session.tokenize text
    let others := call.2.converse texts
    (call.1 :: others.1, others.2)

structure Ready (s : Server α) (n : Nat) (session : Session α) : Prop where
  client : session.client = s.client
  server : session.server = s
  going : session.failure = none
  fresh : session.serving.assembly = .fresh
  requests : session.serving.served.requests = n
  quiet : session.coming.flatMap Arrival.content = []

theorem ready_initial (s : Server α) : Ready s 0 (initial s.client s) :=
  ⟨rfl, rfl, rfl, rfl, rfl, rfl⟩

/-- A call that sends nothing leaves the session as it is. -/
theorem Ready.tokenize_unsent (hlimit : Frame.IsLimit s.limit)
    (hempty : s.engine.respond "" = .ofTokens []) {n : Nat} {session : Session α}
    (h : Ready s n session) {text : String} (hunsent : ¬ Frame.Fits s.limit (encodeUtf8 text)) :
    Agrees s.engine s.limit text (session.tokenize text).1 ∧
      Ready s n (session.tokenize text).2 := by
  obtain ⟨result, hstart, hagrees⟩ := Server.start_unsent hlimit hempty hunsent
  rw [tokenize, h.client, hstart]
  exact ⟨hagrees, rfl, h.server, h.going, h.fresh, h.requests, h.quiet⟩

/-- A call with a request takes its answer, and nothing is left under way. -/
theorem Ready.tokenize_sent (hlimit : Frame.IsLimit s.limit) {n : Nat} {session : Session α}
    (h : Ready s n session) {text : String} (hfits : Frame.Fits s.limit (encodeUtf8 text)) :
    Agrees s.engine s.limit text (session.tokenize text).1 ∧ Ready s (n + 1)
      (session.tokenize text).2 := by
  obtain ⟨client, server, serving, failure, coming⟩ := session
  obtain ⟨hclient, hserver, hgoing, hfresh, hrequests, hquiet⟩ := h
  simp only at hclient hserver hgoing hfresh hrequests hquiet
  subst hclient hserver hgoing
  have hfed := Server.feed_frame { serving with sink := .ofRoom none } hlimit hfresh hfits
    (Sink.accepts_of_unlimited rfl)
  have hbytes :
      (server.answered { serving with sink := .ofRoom none } (encodeUtf8 text)).sink.bytes =
      server.answerFrame (encodeUtf8 text) :=
    (Sink.write_of_accepts (Sink.accepts_of_unlimited rfl)).2
  have hcontent :
      Source.content ⟨coming ++ [.bytes (server.answerFrame (encodeUtf8 text))], .silent⟩ =
      server.answerFrame (encodeUtf8 text) ++ [] := by
    rw [Source.content, List.flatMap_append, hquiet]
    rfl
  obtain ⟨left, hawait, hleft⟩ := awaitFrame_done hlimit.bounds.2
    (Server.sent_fits hlimit _) hcontent
  -- restated for the client's own limit and time, as they stand in the call
  have hawait : Source.awaitFrame server.client.codec.limit server.client.timeout _ = _ := hawait
  rw [tokenize, Client.start_of_fits rfl hlimit.bounds.2 hfits]
  simp only [deliver, hfed, hbytes, source, Option.isSome_none, Bool.false_eq_true,
    ↓reduceIte, hawait, Server.interpret_sent]
  have hsize : text.utf8ByteSize ≤ server.limit := length_encodeUtf8 text ▸ hfits.2
  exact ⟨Server.agrees_sent hlimit hsize, rfl, rfl, rfl, rfl, congrArg (· + 1) hrequests, hleft⟩

/-- A session that is ready answers all texts as its engine would, one after another, and is ready
again. -/
theorem Ready.converse (hlimit : Frame.IsLimit s.limit)
    (hempty : s.engine.respond "" = .ofTokens []) (texts : List String) {n : Nat}
    {session : Session α} (h : Ready s n session) :
    List.Forall₂ (Agrees s.engine s.limit) texts (session.converse texts).1 ∧
      Ready s (n + (payloads s.limit texts).length) (session.converse texts).2 := by
  induction texts generalizing n session with
  | nil => exact ⟨.nil, h⟩
  | cons text texts ih =>
      by_cases hfits : Frame.Fits s.limit (encodeUtf8 text)
      · obtain ⟨hagrees, hready⟩ := h.tokenize_sent hlimit hfits
        obtain ⟨hothers, hlast⟩ := ih hready
        rw [payloads_cons_of_fits hfits, List.length_cons, Nat.add_comm _ 1, ← Nat.add_assoc]
        exact ⟨.cons hagrees hothers, hlast⟩
      · obtain ⟨hagrees, hready⟩ := h.tokenize_unsent hlimit hempty hfits
        obtain ⟨hothers, hlast⟩ := ih hready
        rw [payloads_cons_of_not_fits hfits]
        exact ⟨.cons hagrees hothers, hlast⟩

end Session

/-- **A client gets what the engine for C# answers.** For any texts, one call after another, with
the same legend and the same limit at both ends: a text that no frame can hold is refused and not
sent, and any other one has the answer of the engine if it fits a frame, and else one without
tokens. The client is open in the end. All this holds of a session, and of streams that are joined
in whatever pieces. -/
theorem csharp_calls_agree (legend : Legend) (maxSource nesting limit : Nat)
    (hlimit : Frame.IsLimit limit) (texts : List String) :
    let e := Engine.csharp legend maxSource nesting
    let s : Server Grammar.Label := ⟨e, limit⟩
    let c : Client := ⟨⟨limit, some legend⟩, none, false⟩
    (List.Forall₂ (Agrees e limit) texts ((Session.initial c s).converse texts).1 ∧
      ((Session.initial c s).converse texts).2.client.closed = false ∧
      ((Session.initial c s).converse texts).2.serving.served.requests =
      (payloads limit texts).length) ∧
    (∃ requests answers, s.Joined c texts requests answers) ∧
    ∀ requests answers, s.Joined c texts requests answers →
      List.Forall₂ (Agrees e limit) texts (c.converse ⟨answers, .ofRoom none⟩ texts).1 ∧
      (c.converse ⟨answers, .ofRoom none⟩ texts).2.1.closed = false ∧
      requests.content = (payloads limit texts).flatMap Frame.ofPayload := by
  intro e s c
  have hempty : s.engine.respond "" = .ofTokens [] := csharp_respond_empty legend maxSource nesting
  obtain ⟨hagrees, hready⟩ := (Session.ready_initial s).converse hlimit hempty texts
  refine ⟨⟨hagrees, congrArg Client.closed hready.client, hready.requests.trans (Nat.zero_add _)⟩,
    Server.exists_joined hlimit hempty texts, fun requests answers hjoined => ?_⟩
  obtain ⟨hagrees, hclient, hcontent⟩ := hjoined.agrees hlimit hempty
  exact ⟨hagrees, congrArg Client.closed hclient, hcontent⟩

/-- At the least limit, the empty text, one that is too long and one that is sent. -/
theorem csharp_calls_agree_three : ∃ (final : Session Grammar.Label) (r : Response)
    (data : List UInt32),
    (Session.initial ⟨⟨Frame.clampLimit 0, some .standard⟩, none, false⟩
        ⟨.csharp .standard 100 10, Frame.clampLimit 0⟩).converse
      ["", "namespace A.B.C.D.E.F.G.H.I.J.K.L.M.N.O.P.Q.R.S.T.U.V.W.X.Y.Z.AA.BB.CC;", "enum E"] =
      ([.result (.ok (.ofTokens [])), .result (.error (.frame (.tooLarge 71 64))),
        .result (.ok r)], final) ∧
    Client.relative r = .ok data ∧ final.client.closed = false ∧
    final.serving.served.requests = 1 := by
  obtain ⟨⟨hagrees, hclosed, hrequests⟩, -⟩ :=
    csharp_calls_agree .standard 100 10 (Frame.clampLimit 0)
    (.inr ⟨0, rfl⟩)
    ["", "namespace A.B.C.D.E.F.G.H.I.J.K.L.M.N.O.P.Q.R.S.T.U.V.W.X.Y.Z.AA.BB.CC;", "enum E"]
  generalize Session.converse _ _ = run at hagrees hclosed hrequests ⊢
  obtain ⟨replies, final⟩ := run
  obtain _ | ⟨hfirst, _ | ⟨hsecond, _ | ⟨hthird, _ | _⟩⟩⟩ := hagrees
  obtain ⟨empty, rfl, hempty, -⟩ := hfirst.answered (by decide)
  obtain ⟨r, rfl, -⟩ := hthird.answered (by decide)
  obtain ⟨data, hdata⟩ := hthird.relative (by decide)
  rw [csharp_respond_empty] at hempty
  refine ⟨final, r, data, ?_, Client.Reply.result.inj hdata, hclosed,
    hrequests.trans (by decide +kernel)⟩
  rw [hempty (by decide), hsecond.refused (by decide)]
  rfl

end SharpTokens
