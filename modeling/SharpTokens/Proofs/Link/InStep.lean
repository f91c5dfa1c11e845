import Mathlib.Logic.Relation
import SharpTokens.Proofs.Link.History
import SharpTokens.Proofs.Server.Progress

/-!
# A client and its server stay in step

A link joins a client to a server by two channels that keep the order of bytes. Frames bear no
numbers, so an answer belongs to a request only by its place. What the server has sent is always a
first part of the answers to the requests that reached it (`Server.Answering`), and a client that is
open has read as many answers as it has written requests. A call that is left at any other point
leaves the client closed (`Caller.Tidy`), and so no answer is ever taken for that of another request
(`Link.stays_in_step`).

The invariant has three parts: the history of the client is tidy, what the server sent answers what
it got, and each channel holds what was put in and not yet taken out. Each kind of step touches one
or two of them. That the client is answered in order then follows from counting frames: there are as
many answers among the bytes it read as requests among those it wrote, and the server sent answers
in the order of requests.
-/

namespace SharpTokens

open Text

/-! ## Links

Bytes may stay in a channel for as long as it takes, and come out in any pieces. The server may end
at any moment, and its stream may stop taking answers. -/

/-- A channel that keeps the order of bytes: those that came out of it, and those under way. -/
structure Pipe where
  received : Bytes
  waiting : Bytes

namespace Pipe

def sent (p : Pipe) : Bytes := p.received ++ p.waiting

def put (p : Pipe) (bs : Bytes) : Pipe := { p with waiting := p.waiting ++ bs }

@[simp] theorem sent_put (p : Pipe) (bs : Bytes) : (p.put bs).sent = p.sent ++ bs := by
  simp [sent, put]

/-- Bytes that come out were put in before. -/
theorem sent_take {p : Pipe} {bs rest : Bytes} (h : p.waiting = bs ++ rest) :
    Pipe.sent ⟨p.received ++ bs, rest⟩ = p.sent := by
  rw [sent, sent, h, List.append_assoc]

end Pipe

/-- A client, a server and the channels between them. The server may have ended. -/
structure Link where
  caller : Caller
  serving : Serving
  ended : Bool
  requests : Pipe
  responses : Pipe

namespace Link

/-- A new client and a server that has seen nothing. -/
def initial (codec : Codec) (timeout : Option Nat) : Link :=
  ⟨⟨⟨codec, timeout, false⟩, none, []⟩, .initial (.ofRoom none), false, ⟨[], []⟩, ⟨[], []⟩⟩

/-- What the server does with bytes, if its own stream takes so many of its answers. -/
def fed {α : Type} (s : Server α) (l : Link) (room : Option Nat) (bs : Bytes) : Server.Fed :=
  s.feed { l.serving with sink := .ofRoom room } bs

/-- What can happen on a link: a step of the client, bytes that reach the server, or the end of the
server. -/
inductive Step {α : Type} (s : Server α) : Link → Link → Prop
  | client {l : Link} {caller : Caller} (h : Caller.Step l.caller .nothing caller) :
      Step s l { l with caller }
  | write {l : Link} {caller : Caller} {bs : Bytes} (h : Caller.Step l.caller (.sends bs) caller) :
      Step s l { l with caller, requests := l.requests.put bs }
  | read {l : Link} {caller : Caller} {bs rest : Bytes}
      (h : Caller.Step l.caller (.takes bs) caller)
      (hbs : l.responses.waiting = bs ++ rest) :
      Step s l { l with caller, responses := ⟨l.responses.received ++ bs, rest⟩ }
  | hungUp {l : Link} {caller : Caller} (h : Caller.Step l.caller .ends caller)
      (hended : l.ended = true)
      (hnone : l.responses.waiting = []) : Step s l { l with caller }
  | serve {l : Link} (room : Option Nat) {bs rest : Bytes} (hgoing : l.ended = false)
      (hbs : l.requests.waiting = bs ++ rest) (hall : (l.fed s room bs).unread = []) :
      Step s l { l with
        serving := (l.fed s room bs).state
        ended := (l.fed s room bs).failure.isSome
        requests := ⟨l.requests.received ++ bs, rest⟩
        responses := l.responses.put (l.fed s room bs).state.sink.bytes }
  | stop {l : Link} : Step s l { l with ended := true }

/-- What can happen on a link in the long run. -/
abbrev Steps {α : Type} (s : Server α) : Link → Link → Prop := Relation.ReflTransGen (Step s)

end Link

/-! ## What holds at every moment

The step lemma, and by induction what holds after any number of steps. -/

/-- A payload answers another one if the server gives it for that. -/
def Server.Gives {α : Type} (s : Server α) (request answer : Bytes) : Prop :=
  answer = (s.sent request).render

/-- Calls that left the client open wrote whole requests and read as many answers to them. -/
theorem Caller.frames_of_kept {α : Type} {s : Server α} {codec : Codec} {past : List PastCall}
    (h : ∀ p ∈ past, p.Kept s.Gives codec) :
    ∃ payloads : List Bytes, (∀ p ∈ payloads, Frame.Fits codec.limit p) ∧
      past.flatMap PastCall.written = payloads.flatMap Frame.ofPayload ∧
      past.flatMap PastCall.read = payloads.flatMap s.answerFrame := by
  induction past with
  | nil => exact ⟨[], by simp, rfl, rfl⟩
  | cons p past ih =>
      obtain ⟨payloads, hfits, hwritten, hread⟩ := ih fun p hp => h p (List.mem_cons_of_mem _ hp)
      cases h p List.mem_cons_self with
      | empty => exact ⟨payloads, hfits, hwritten, hread⟩
      | refused => exact ⟨payloads, hfits, hwritten, hread⟩
      | exchanged hp hanswer =>
          cases hanswer
          refine ⟨_ :: payloads, List.forall_mem_cons.2 ⟨hp, hfits⟩, ?_, ?_⟩
          · rw [List.flatMap_cons, List.flatMap_cons, hwritten]
          · rw [List.flatMap_cons, List.flatMap_cons, hread]
            rfl

namespace Link

variable {α : Type} {s : Server α} {codec : Codec}

/-- The client's calls are in order, the server answers what it got, and nothing is lost on the
way. -/
structure Inv (s : Server α) (codec : Codec) (l : Link) : Prop where
  tidy : l.caller.Tidy s.Gives codec
  answering : s.Answering l.requests.received l.responses.sent l.ended l.serving.assembly
  written : l.requests.sent = l.caller.written
  read : l.responses.received = l.caller.read

/-- Nothing has happened yet. -/
theorem inv_initial (s : Server α) (codec : Codec) (timeout : Option Nat) :
    Inv s codec (initial codec timeout) :=
  ⟨.idle (by simp), s.answering_nil, rfl, rfl⟩

/-- A whole frame that a call takes is the answer to its request. -/
theorem Inv.answer {l : Link} (hs : Frame.IsLimit s.limit) (hc : Frame.IsLimit codec.limit)
    (h : Inv s codec l) {caller : Caller} {bs rest : Bytes}
    (hstep : Caller.Step l.caller (.takes bs) caller)
    (hbs : l.responses.waiting = bs ++ rest) (call : Call) (payload : Bytes)
    (hcall : l.caller.call = some call) (hpayload : call.read ++ bs = Frame.ofPayload payload)
    (hlength : payload.length ≤ Frame.maxLength) :
    s.Gives (encodeUtf8 call.source) payload := by
  obtain ⟨htidy, hanswering, hwritten, hread⟩ := h
  obtain ⟨c, source, a, w, r, past, hcaller⟩ := hstep.reading_of_takes
  rw [hcaller] at htidy hwritten hread hcall
  cases hcall
  cases htidy with
  | reading hpast hframe =>
      -- all earlier requests have been answered and read, so this frame is behind the answers to
      -- them
      obtain ⟨payloads, hfits, hrequests, hanswers⟩ := Caller.frames_of_kept hpast
      obtain ⟨rfl, hsource⟩ := Frame.eq_ofPayload_of_encode hframe
      have hsent : l.requests.received ++ l.requests.waiting =
          (payloads ++ [encodeUtf8 source]).flatMap Frame.ofPayload := by
        rw [← Pipe.sent, hwritten, Caller.written, hrequests, List.flatMap_append,
          List.flatMap_singleton]
        rfl
      have hout : l.responses.sent = payloads.flatMap s.answerFrame ++
          (Frame.ofPayload payload ++ rest) := by
        rw [Pipe.sent, hbs, hread, Caller.read, hanswers, ← hpayload]
        simp
      have hshort : ∀ p ∈ payloads ++ [encodeUtf8 source], p.length ≤ Frame.maxLength := by
        intro p hp
        rcases List.mem_append.1 hp with hp | hp
        · exact Nat.le_trans (hfits p hp).2 hc.bounds.2
        · rw [List.mem_singleton.1 hp]
          exact Nat.le_trans hsource.2 hc.bounds.2
      exact hanswering.last_answer hs hsent hshort hout hlength

/-- **The invariant is kept by every step.** -/
theorem Inv.step {l l' : Link} (hs : Frame.IsLimit s.limit) (hc : Frame.IsLimit codec.limit)
    (h : Inv s codec l) (hstep : Step s l l') : Inv s codec l' := by
  obtain ⟨htidy, hanswering, hwritten, hread⟩ := h
  cases hstep with
  | client hcaller =>
      refine ⟨hcaller.tidy hc htidy (fun _ _ _ _ h => by cases h), hanswering, ?_, ?_⟩
      · rw [hcaller.written_eq, ← hwritten]
        exact (List.append_nil _).symm
      · rw [hcaller.read_eq, ← hread]
        exact (List.append_nil _).symm
  | write hcaller =>
      refine ⟨hcaller.tidy hc htidy (fun _ _ _ _ h => by cases h), hanswering, ?_, ?_⟩
      · rw [hcaller.written_eq, ← hwritten, Pipe.sent_put]
        rfl
      · rw [hcaller.read_eq, ← hread]
        exact (List.append_nil _).symm
  | read hcaller hbs =>
      refine ⟨hcaller.tidy hc htidy ?_, ?_, ?_, ?_⟩
      · rintro call bs payload hcall ⟨⟩
        exact Inv.answer hs hc ⟨htidy, hanswering, hwritten, hread⟩ hcaller hbs call payload hcall
      · rw [Pipe.sent_take hbs]
        exact hanswering
      · rw [hcaller.written_eq, ← hwritten]
        exact (List.append_nil _).symm
      · rw [hcaller.read_eq, ← hread]
        rfl
  | hungUp hcaller =>
      refine ⟨hcaller.tidy hc htidy (fun _ _ _ _ h => by cases h), hanswering, ?_, ?_⟩
      · rw [hcaller.written_eq, ← hwritten]
        exact (List.append_nil _).symm
      · rw [hcaller.read_eq, ← hread]
        exact (List.append_nil _).symm
  | serve _ hgoing hbs hall =>
      -- the server starts each piece with an empty sink, and the pipe has what it sent before
      refine ⟨htidy, ?_, ?_, hread⟩
      · rw [hgoing] at hanswering
        rw [Pipe.sent_put]
        refine Server.Answering.feed hs ?_ hall
        rwa [show (Sink.ofRoom _).bytes = [] from rfl, List.append_nil]
      · rw [Pipe.sent_take hbs]
        exact hwritten
  | stop => exact ⟨htidy, hanswering.ended, hwritten, hread⟩

/-- What each step keeps is kept by all of them. -/
theorem Inv.steps {l l' : Link} (hs : Frame.IsLimit s.limit) (hc : Frame.IsLimit codec.limit)
    (h : Inv s codec l) (hsteps : Steps s l l') : Inv s codec l' := by
  induction hsteps with
  | refl => exact h
  | tail _ hstep ih => exact ih.step hs hc hstep

/-! ## What follows

An open client has an answer for each request, and nothing is under way. A closed one stays as it
is. -/

/-- A client that is open has read as many answers as it wrote requests, and nothing is under
way. -/
theorem Inv.of_open {l : Link} (hs : Frame.IsLimit s.limit) (hc : Frame.IsLimit codec.limit)
    (h : Inv s codec l) (hopen : l.caller.client.closed = false) :
    l.caller.call = none ∧ ∃ payloads : List Bytes,
      l.requests.sent = payloads.flatMap Frame.ofPayload ∧
      l.responses.received = payloads.flatMap s.answerFrame ∧
      l.requests.waiting = [] ∧ l.responses.waiting = [] ∧
      (l.ended = false → l.serving.assembly = .fresh) := by
  obtain ⟨htidy, hanswering, hwritten, hread⟩ := h
  generalize l.caller = caller at htidy hwritten hread hopen ⊢
  cases htidy with
  | idle hpast =>
      obtain ⟨payloads, hfits, hrequests, hanswers⟩ := Caller.frames_of_kept hpast
      have hsent : l.requests.sent = payloads.flatMap Frame.ofPayload := by
        rw [hwritten, Caller.written, hrequests]
        exact List.append_nil _
      have hreceived : l.responses.received = payloads.flatMap s.answerFrame := by
        rw [hread, Caller.read, hanswers]
        exact List.append_nil _
      have hout : l.responses.sent = payloads.flatMap s.answerFrame ++ l.responses.waiting := by
        rw [← hreceived, Pipe.sent]
      exact ⟨rfl, payloads, hsent, hreceived, hanswering.all_answered hs hsent
        (fun p hp => Nat.le_trans (hfits p hp).2 hc.bounds.2) hout⟩
  | writing => cases hopen
  | reading => cases hopen
  | closed => cases hopen

/-- What is the same from `l` to `l'` of a client that is closed: it neither writes nor reads, and
all calls say that it is closed. -/
structure Shut (l l' : Link) : Prop where
  client : l'.caller.client = l.caller.client
  call : l'.caller.call = none
  requests : l'.requests.sent = l.requests.sent
  responses : l'.responses.received = l.responses.received
  past : ∃ later, l'.caller.past = l.caller.past ++ later ∧ ∀ p ∈ later, p.Rejected

/-- A closed client without a call does nothing but reject calls. -/
theorem shut_step {l l' : Link} (hclosed : l.caller.client.closed = true)
    (hcall : l.caller.call = none) (h : Step s l l') : Shut l l' := by
  cases h with
  | client hcaller =>
      obtain ⟨-, hclient, hnone, p, hp, hpast⟩ := hcaller.of_closed hclosed hcall
      exact ⟨hclient, hnone, rfl, rfl, [p], hpast, List.forall_mem_singleton.2 hp⟩
  | write hcaller => cases (hcaller.of_closed hclosed hcall).1
  | read hcaller => cases (hcaller.of_closed hclosed hcall).1
  | hungUp hcaller => cases (hcaller.of_closed hclosed hcall).1
  | serve _ _ hbs =>
      exact ⟨rfl, hcall, Pipe.sent_take hbs, rfl, [], (List.append_nil _).symm, by simp⟩
  | stop => exact ⟨rfl, hcall, rfl, rfl, [], (List.append_nil _).symm, by simp⟩

/-- **A closed client stays closed.** -/
theorem shut_steps {l l' : Link} (hclosed : l.caller.client.closed = true)
    (hcall : l.caller.call = none) (h : Steps s l l') : Shut l l' := by
  induction h with
  | refl => exact ⟨rfl, hcall, rfl, rfl, [], (List.append_nil _).symm, by simp⟩
  | tail _ hstep ih =>
      obtain ⟨hclient, hnone, hrequests, hresponses, later, hpast, hlater⟩ := ih
      obtain ⟨hclient', hnone', hrequests', hresponses', more, hpast', hmore⟩ :=
        shut_step (by rwa [hclient]) hnone hstep
      refine ⟨hclient'.trans hclient, hnone', hrequests'.trans hrequests,
        hresponses'.trans hresponses,
        later ++ more, ?_, List.forall_mem_append.2 ⟨hlater, hmore⟩⟩
      rw [hpast', hpast, List.append_assoc]

/-- An answer that the server gave to the request of the same call: the call wrote this request
behind some others, and read the answer to it behind the answers to those. -/
structure Paired (s : Server α) (earlier : List PastCall) (p : PastCall) (r : Response) : Prop where
  written : p.written = Frame.ofPayload (encodeUtf8 p.source)
  read : p.read = Frame.ofPayload r.render
  answer : s.answer (encodeUtf8 p.source) = .ok (p.read, r.isDegraded)
  place : ∃ payloads : List Bytes, earlier.flatMap PastCall.written = payloads.flatMap
    Frame.ofPayload ∧
    earlier.flatMap PastCall.read = payloads.flatMap s.answerFrame

/-- What is always so on a link. -/
structure InStep (s : Server α) (codec : Codec) (l : Link) : Prop where
  /-- What passes through the channels is what calls wrote and read. -/
  passed : l.requests.sent = l.caller.written ∧ l.responses.received = l.caller.read
  /-- A client that is open has no call under way. It has read the answers to all requests that it
  wrote, and there is nothing else, whole or in part. -/
  whole : l.caller.client.closed = false → l.caller.call = none ∧ ∃ payloads : List Bytes,
    l.requests.sent = payloads.flatMap Frame.ofPayload ∧
    l.responses.received = payloads.flatMap s.answerFrame ∧
    l.requests.waiting = [] ∧ l.responses.waiting = [] ∧
    (l.ended = false → l.serving.assembly = .fresh)
  /-- A client that a call left closed stays closed. -/
  shut : l.caller.client.closed = true → l.caller.call = none → ∀ l', Steps s l l' → Shut l l'
  /-- An answer is the one to the request of the same call. -/
  paired : ∀ earlier p later r, l.caller.past = earlier ++ p :: later → p.source ≠ "" →
    p.result = some (.ok r) → Paired s earlier p r
  /-- A call that failed left the client open exactly after a harmless error. -/
  cautious : l.caller.Cautious codec
  /-- A call on streams is a run of such steps. -/
  calls : l.caller.call = none → ∀ wire source patience,
    Caller.OnStreams l.caller.client wire source patience l.caller.past

/-- The answer of a call is the one that the server gave to its request, since as many answers come
before it as requests. -/
theorem Inv.paired {l : Link} (hs : Frame.IsLimit s.limit) (h : Inv s codec l)
    {earlier later : List PastCall} {p : PastCall} {r : Response}
    (hpast : l.caller.past = earlier ++ p :: later) (hsource : p.source ≠ "")
    (hok : p.result = some (.ok r)) : Paired s earlier p r := by
  obtain ⟨hp, hearlier⟩ := h.tidy.kept_of_ok hpast hok
  obtain ⟨payloads, -, hwritten, hread⟩ := Caller.frames_of_kept hearlier
  cases hp with
  | empty => exact absurd rfl hsource
  | refused => cases hok
  | exchanged hfits hanswer =>
      cases hanswer
      have hdecode := Option.some.inj hok
      cases hr : codec.decodeResponse (s.sent (encodeUtf8 _)).render with
      | error e =>
          rw [hr] at hdecode
          cases hdecode
      | ok r' =>
          rw [hr] at hdecode
          cases hdecode
          cases Codec.eq_of_decodeResponse_render hr
          exact ⟨rfl, rfl, Server.answer_eq hs _, payloads, hwritten, hread⟩

/-- **A client and its server stay in step**, whatever is delivered when, and wherever calls are
left. Which errors leave the client open does not depend on the other end.

The limits of both ends are those that a configuration makes, the default one or any number moved
into its bounds: under a lower one a server could not even send that an answer is too long. -/
theorem stays_in_step (s : Server α) (hs : Frame.IsLimit s.limit) (codec : Codec)
    (hc : Frame.IsLimit codec.limit) (timeout : Option Nat) :
    (∀ l, Steps s (initial codec timeout) l → InStep s codec l) ∧
    ∀ ks x, Caller.Run ⟨⟨codec, timeout, false⟩, none, []⟩ ks x → x.Cautious codec := by
  constructor
  · intro l h
    have hinv := (inv_initial s codec timeout).steps hs hc h
    exact {
      passed := ⟨hinv.written, hinv.read⟩
      whole := hinv.of_open hs hc
      shut := fun hclosed hcall _ => shut_steps hclosed hcall
      paired := fun _ _ _ _ => hinv.paired hs
      cautious := hinv.tidy.cautious
      calls := fun _ wire source patience => Caller.tokenize_onStreams _ wire source patience _ }
  · intro ks x hrun
    exact (hrun.tidy hc (.idle (by simp))).cautious

/-- A client that is open gets an answer from a server that goes on. -/
theorem exists_exchange (hs : Frame.IsLimit s.limit) (hc : Frame.IsLimit codec.limit)
    (hle : s.limit ≤ codec.limit) (timeout : Option Nat) (past : List PastCall) (source : String)
    (hfits : Frame.Fits s.limit (encodeUtf8 source)) (serving : Serving)
    (hfresh : serving.assembly = .fresh) (asked answered : Bytes) :
    ∃ l, Steps s ⟨⟨⟨codec, timeout, false⟩, none, past⟩, serving, false, ⟨asked, []⟩,
      ⟨answered, []⟩⟩ l ∧
      l.caller = Caller.settled ⟨codec, timeout, true⟩ past
        ⟨source, .reading .fresh, Frame.ofPayload (encodeUtf8 source),
          s.answerFrame (encodeUtf8 source)⟩
        (.ok (some (s.sent (encodeUtf8 source)).render)) := by
  have hstart := Client.start_of_fits (c := ⟨codec, timeout, false⟩) rfl hc.bounds.2
    ⟨hfits.1, Nat.le_trans hfits.2 hle⟩
  have hfed : s.feed { serving with sink := .ofRoom none }
      (Frame.ofPayload (encodeUtf8 source)) = _ :=
    Server.feed_frame { serving with sink := .ofRoom none } hs hfresh hfits
      (Sink.accepts_of_unlimited rfl)
  have hsink : (s.answered { serving with sink := .ofRoom none } (encodeUtf8 source)).sink.bytes =
      s.answerFrame (encodeUtf8 source) :=
    (Sink.write_of_accepts (Sink.accepts_of_unlimited rfl)).2
  have hread : Assembly.fresh.feed codec.limit (s.answerFrame (encodeUtf8 source)) =
      .done (.ok (s.sent (encodeUtf8 source)).render) [] := by
    have hanswer := Server.sent_fits hs (encodeUtf8 source)
    have hwhole := Assembly.feed_frame hc.bounds.2 ⟨hanswer.1, Nat.le_trans hanswer.2 hle⟩ []
    rwa [List.append_nil] at hwhole
  -- start, write all, wait, be served, and read all
  have h₁ := Relation.ReflTransGen.single
    (Step.client (s := s) (l := ⟨⟨⟨codec, timeout, false⟩, none, past⟩,
    serving, false, ⟨asked, []⟩, ⟨answered, []⟩⟩) (.request hstart))
  have h₂ := h₁.tail (.write (.write (List.append_nil _).symm))
  have h₃ := h₂.tail (.client .await)
  have h₄ := h₃.tail (.serve none rfl (List.append_nil _).symm (by simp [fed, Pipe.put, hfed]))
  have h₅ := h₄.tail (@Step.read _ _ _ _ _ [] (.settle hread)
    (by simp [fed, Pipe.put, hfed, hsink]))
  exact ⟨_, h₅, rfl⟩

/-- An answer comes, then one is late, and from then on the client is closed. But it is open after a
frame with no answer in it. -/
theorem stays_in_step_late :
    let s : Server Unit := ⟨⟨.standard, 100, fun _ => .error .untold⟩, Frame.clampLimit 0⟩
    let codec : Codec := ⟨Frame.clampLimit 0, none⟩
    (∃ l r, Steps s (initial codec (some 5)) l ∧ InStep s codec l ∧
      l.caller.past.map PastCall.result = [some (.ok r), some (.error (.timeout 5)),
        some (.error .closed)] ∧
      l.caller.past.map PastCall.leftOpen = [true, false, false]) ∧
    ∃ ks x, Caller.Run ⟨⟨codec, some 5, false⟩, none, []⟩ ks x ∧ x.Cautious codec ∧
      x.past.map PastCall.result = [some (.error (.frame .malformed))] ∧
      x.past.map PastCall.leftOpen = [true] := by
  intro s codec
  have hs : Frame.IsLimit s.limit := .inr ⟨0, rfl⟩
  have hc : Frame.IsLimit codec.limit := .inr ⟨0, rfl⟩
  obtain ⟨hlink, hclient⟩ := stays_in_step s hs codec hc (some 5)
  constructor
  · obtain ⟨⟨caller, serving, ended, requests, responses⟩, hsteps, hcaller⟩ :=
      exists_exchange hs hc (Nat.le_refl _) (some 5) [] "a" (by decide)
        (.initial (.ofRoom none)) rfl [] []
    have hdecode (r : Response) : codec.decodeResponse r.render = .ok r := by
      rw [Codec.decodeResponse, Response.parse?_render]
      rfl
    simp only [Caller.settled, Client.interpret, hdecode] at hcaller
    subst hcaller
    have hfits : Frame.Fits codec.limit (encodeUtf8 "b") := by decide
    -- two bytes of the second request are written when the time is over
    have h₁ := hsteps.tail (.client (.request (Client.start_of_fits rfl hc.bounds.2 hfits)))
    have h₂ := h₁.tail (.write (.write (List.take_append_drop 2 _).symm))
    have h₃ := h₂.tail (.client (.expire rfl))
    have h₄ := h₃.tail (.client (@Caller.Step.refuse _ _ _ "c" _ rfl))
    exact ⟨_, _, h₄, hlink _ h₄, rfl, rfl⟩
  · have hfits : Frame.Fits codec.limit [120] := by decide
    obtain ⟨ks, hrun⟩ := Caller.exists_run_of_payload hc (some 5) [] "a" (by decide) hfits
    exact ⟨ks, _, hrun, hclient ks _ hrun, rfl, rfl⟩

end Link

end SharpTokens
