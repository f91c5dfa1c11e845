import Mathlib.Data.List.Forall2
import SharpTokens.Server
import SharpTokens.Proofs.Channel.Reading
import SharpTokens.Proofs.Channel.Writing
import SharpTokens.Proofs.Token.Response

/-!
# A server answers every request

The answer that a server sends to a payload is said here by `Server.sent`: the engine's, if its
bytes fit a frame, and otherwise a shorter one that says so. There is always one that fits, since
the least limit leaves room for the shortest. So a server that takes whole frames sends as many, in
their order, and only the stream it reads from ends it (`serve_answers_every_request`).

A server is fed: it puts a frame together from bytes as they come and answers when the frame is
there. What it does with all bytes of a stream is what it does with them at once
(`Server.feed_append`), so a stream is taken apart into whole frames and a rest. For each whole
frame there is one answer; the rest decides how the server ends.
-/

namespace SharpTokens

open Text

/-! ## Limits

A codec never has a limit below the least one or above what a length can say. -/

namespace Frame

/-- A limit that a codec can have: the usual one, or one that was asked for. -/
def IsLimit (limit : Nat) : Prop := limit = defaultLimit ∨ ∃ n, limit = clampLimit n

theorem IsLimit.bounds {limit : Nat} (h : IsLimit limit) :
    minLimit ≤ limit ∧ limit ≤ maxLength := by
  rcases h with rfl | ⟨n, rfl⟩
  · decide
  · rw [clampLimit]
    have : minLimit ≤ maxLength := by decide
    omega

end Frame

/-! ## One request

There are three answers to try: what the engine says, why it was not sent, and that this is too long
to say as well. The last one always fits. -/

namespace Codec

variable {c : Codec} {r : Response}

theorem encodeResponse_ok (hlimit : c.limit ≤ Frame.maxLength) (h : r.render.length ≤ c.limit) :
    c.encodeResponse r = .ok (Frame.ofPayload r.render) :=
  Frame.encode_eq_ok hlimit ⟨List.length_pos_iff.2 r.render_ne_nil, h⟩

/-- An answer that is too large is refused with its length. -/
theorem encodeResponse_tooLarge (h : c.limit < r.render.length) :
    c.encodeResponse r = .error (.tooLarge r.render.length c.limit) :=
  Frame.encode_eq_tooLarge h

end Codec

namespace Server

variable {α : Type} (s : Server α)

/-- The answer that says why another one was not sent. -/
def excuse (reason : FrameError) : Response :=
  if (Response.degraded reason.message).render.length ≤ s.limit then .degraded reason.message
  else .degraded tooLongToSay

def sent (payload : Bytes) : Response :=
  if (s.respond payload).render.length ≤ s.limit then s.respond payload
  else s.excuse (.tooLarge (s.respond payload).render.length s.limit)

def answerFrame (payload : Bytes) : Bytes := Frame.ofPayload (s.sent payload).render

/-- The shortest answer fits the least limit. -/
theorem length_tooLongToSay : (Response.degraded tooLongToSay).render.length ≤ Frame.minLimit := by
  decide

variable {s}

/-- An excuse says that something failed. -/
theorem excuse_degraded (reason : FrameError) : ∃ text, s.excuse reason = .degraded text := by
  rw [excuse]
  split
  · exact ⟨_, rfl⟩
  · exact ⟨_, rfl⟩

/-- An excuse fits. -/
theorem length_excuse (hlimit : Frame.IsLimit s.limit) (reason : FrameError) :
    (s.excuse reason).render.length ≤ s.limit := by
  rw [excuse]
  split
  · assumption
  · exact Nat.le_trans length_tooLongToSay hlimit.bounds.1

/-- The least limit leaves room for an excuse. -/
theorem apology_eq (hlimit : Frame.IsLimit s.limit) (reason : FrameError) :
    s.apology reason = .ok (Frame.ofPayload (s.excuse reason).render) := by
  have hfits := length_excuse hlimit reason
  rw [excuse] at hfits ⊢
  split at hfits
  · rw [apology, Codec.encodeResponse_ok hlimit.bounds.2 hfits, if_pos hfits]
  · rw [apology, Codec.encodeResponse_tooLarge (Nat.lt_of_not_le ‹_›), if_neg ‹_›]
    exact Codec.encodeResponse_ok hlimit.bounds.2 hfits

/-- Whatever is sent fits a frame. -/
theorem sent_fits (hlimit : Frame.IsLimit s.limit) (payload : Bytes) :
    Frame.Fits s.limit (s.sent payload).render := by
  refine ⟨List.length_pos_iff.2 (Response.render_ne_nil _), ?_⟩
  rw [sent]
  split
  · assumption
  · exact length_excuse hlimit _

/-- There is always an answer to send. -/
theorem answer_eq (hlimit : Frame.IsLimit s.limit) (payload : Bytes) :
    s.answer payload = .ok (s.answerFrame payload, (s.sent payload).isDegraded) := by
  cases Nat.lt_or_ge s.limit (s.respond payload).render.length with
  | inr hfits =>
      rw [answerFrame, sent, if_pos hfits, answer]
      simp only [Codec.encodeResponse_ok (c := s.codec) hlimit.bounds.2 hfits]
  | inl hlong =>
      -- the count of degraded answers is right because every excuse is one
      obtain ⟨text, htext⟩ := excuse_degraded (s := s)
        (.tooLarge (s.respond payload).render.length s.limit)
      rw [answerFrame, sent, if_neg (Nat.not_le.2 hlong), answer]
      simp only [Codec.encodeResponse_tooLarge (c := s.codec) hlong]
      show (s.apology (.tooLarge _ s.limit)).map _ = _
      rw [apology_eq hlimit, htext]
      rfl

/-- What a server is at after it has sent an answer. -/
def answered (s : Server α) (state : Serving) (payload : Bytes) : Serving :=
  ⟨.fresh, ⟨state.served.requests + 1, state.served.degraded + (s.sent payload).isDegraded.toNat⟩,
    (state.sink.write (s.answerFrame payload)).2⟩

/-- Where there is room for it, the answer is written and the server goes on. -/
theorem reply_of_accepts (hlimit : Frame.IsLimit s.limit) {state : Serving} {payload : Bytes}
    (h : state.sink.Accepts (s.answerFrame payload)) :
    s.reply state payload = (.ok (), s.answered state payload) := by
  have hwrite : state.sink.write (s.answerFrame payload) = (.ok (), _) :=
    Prod.ext (Sink.write_of_accepts h).1 rfl
  rw [reply, answer_eq hlimit]
  simp only
  rw [hwrite]
  rfl

/-- Where there is none, as much of it is written as there is room for, and the server ends. -/
theorem reply_of_not_accepts (hlimit : Frame.IsLimit s.limit) {state : Serving} {payload : Bytes}
    (h : ¬ state.sink.Accepts (s.answerFrame payload)) :
    s.reply state payload = (.error (.io .write), { state with
      assembly := .fresh, sink := (state.sink.write (s.answerFrame payload)).2 }) := by
  have hwrite : state.sink.write (s.answerFrame payload) = (.error (.io .write), _) :=
    Prod.ext (Sink.write_of_not_accepts h).1 rfl
  rw [reply, answer_eq hlimit]
  simp only
  rw [hwrite]

/-! ## Bytes as they come

One lemma for each thing that bytes can lead to: part of a frame, a whole one, or a wrong length. -/

/-- Bytes may come in any pieces. -/
theorem feed_append (state : Serving) (xs ys : Bytes) :
    ((s.feed state xs).failure = none →
      s.feed state (xs ++ ys) = s.feed (s.feed state xs).state ys) ∧
    ∀ e, (s.feed state xs).failure = some e →
      s.feed state (xs ++ ys) = ⟨(s.feed state xs).state, some e,
        (s.feed state xs).unread ++ ys⟩ := by
  induction xs generalizing state with
  | nil => exact ⟨fun _ => rfl, nofun⟩
  | cons x xs ih =>
      rw [List.cons_append, feed, feed]
      cases state.assembly.push s.limit x with
      | more assembly => exact ih { state with assembly }
      | done result =>
          cases result with
          | error e => exact ⟨nofun, fun _ h => by cases h; rfl⟩
          | ok payload =>
              simp only
              split
              · next next _ => exact ih next
              · exact ⟨nofun, fun _ h => by cases h; rfl⟩

variable {state : Serving} {bs rest : Bytes}

/-- Without a whole frame nothing is answered. -/
theorem feed_of_more {a : Assembly} (h : state.assembly.feed s.limit bs = .more a) :
    s.feed state bs = ⟨{ state with assembly := a }, none, []⟩ := by
  induction bs generalizing state with
  | nil =>
      cases h
      rfl
  | cons b bs ih =>
      rw [Assembly.feed] at h
      rw [feed]
      split at h
      · next hpush =>
        rw [hpush]
        exact ih h
      · cases h

/-- A payload is answered as soon as it is there. -/
theorem feed_of_payload (state : Serving) {payload : Bytes}
    (h : state.assembly.feed s.limit bs = .done (.ok payload) rest) :
    (∀ next, s.reply state payload = (.ok (), next) → s.feed state bs = s.feed next rest) ∧
    ∀ e next, s.reply state payload = (.error e, next) →
    s.feed state bs = ⟨next, some (.write e), rest⟩ := by
  induction bs generalizing state with
  | nil => cases h
  | cons b bs ih =>
      rw [Assembly.feed] at h
      rw [feed]
      split at h
      · next assembly hpush =>
        rw [hpush]
        exact ih { state with assembly } h
      · next hpush =>
        cases h
        constructor
        · intro next hreply
          simp only [hpush, hreply]
        · intro e next hreply
          simp only [hpush, hreply]

/-- A wrong length ends a server. -/
theorem feed_of_error {e : FrameError}
    (h : state.assembly.feed s.limit bs = .done (.error e) rest) :
    ∃ a, s.feed state bs = ⟨{ state with assembly := a }, some (.read e), rest⟩ := by
  induction bs generalizing state with
  | nil => cases h
  | cons b bs ih =>
      rw [Assembly.feed] at h
      rw [feed]
      split at h
      · next hpush =>
        rw [hpush]
        exact ih h
      · next hpush =>
        cases h
        rw [hpush]
        exact ⟨state.assembly, rfl⟩

/-! ## Whole frames

By induction on the payloads, each of which leaves the server as after its answer. -/

variable {payloads : List Bytes}

/-- Room for all answers is room for the first and then for the others. -/
theorem accepts_flatMap_cons {payload : Bytes}
    (h : state.sink.Accepts ((payload :: payloads).flatMap s.answerFrame)) :
    state.sink.Accepts (s.answerFrame payload) ∧
      (s.answered state payload).sink.Accepts (payloads.flatMap s.answerFrame) := by
  rw [List.flatMap_cons] at h
  exact Sink.accepts_append.1 h

/-- Of some frames, the first is there first. -/
theorem assembly_feed_cons (hlimit : Frame.IsLimit s.limit) (hfresh : state.assembly = .fresh)
    {payload : Bytes} (hfits : ∀ p ∈ payload :: payloads, Frame.Fits s.limit p) (tail : Bytes) :
    state.assembly.feed s.limit ((payload :: payloads).flatMap Frame.ofPayload ++ tail) =
      .done (.ok payload) (payloads.flatMap Frame.ofPayload ++ tail) := by
  rw [hfresh, List.flatMap_cons, List.append_assoc]
  exact Assembly.feed_frame hlimit.bounds.2 (hfits payload List.mem_cons_self) _

/-- **Every frame is answered**, and then the server goes on with what is behind. -/
theorem feed_frames (payloads : List Bytes) (hlimit : Frame.IsLimit s.limit)
    (hfresh : state.assembly = .fresh) (hfits : ∀ p ∈ payloads, Frame.Fits s.limit p)
    (haccepts : state.sink.Accepts (payloads.flatMap s.answerFrame)) (tail : Bytes) :
    s.feed state (payloads.flatMap Frame.ofPayload ++ tail) =
      s.feed (payloads.foldl s.answered state) tail := by
  induction payloads generalizing state with
  | nil => rfl
  | cons payload payloads ih =>
      obtain ⟨hfirst, hothers⟩ := accepts_flatMap_cons haccepts
      have hdone := assembly_feed_cons hlimit hfresh hfits tail
      rw [(feed_of_payload state hdone).1 _ (reply_of_accepts hlimit hfirst)]
      -- an answer leaves the server ready for the next frame
      exact ih rfl (fun p hp => hfits p (List.mem_cons_of_mem _ hp)) hothers

/-- One frame and its answer. -/
theorem feed_frame (state : Serving) (hlimit : Frame.IsLimit s.limit)
    (hfresh : state.assembly = .fresh) {payload : Bytes} (hfits : Frame.Fits s.limit payload)
    (haccepts : state.sink.Accepts (s.answerFrame payload)) :
    s.feed state (Frame.ofPayload payload) = ⟨s.answered state payload, none, []⟩ := by
  have hone := feed_frames [payload] hlimit hfresh (List.forall_mem_singleton.2 hfits)
    (by rwa [List.flatMap_singleton]) []
  rwa [List.flatMap_singleton, List.append_nil] at hone

/-- A sink that does not take every answer ends the server. -/
theorem feed_frames_refused (hlimit : Frame.IsLimit s.limit) (hfresh : state.assembly = .fresh)
    (hfits : ∀ p ∈ payloads, Frame.Fits s.limit p)
    (hrefuses : ¬ state.sink.Accepts (payloads.flatMap s.answerFrame)) (tail : Bytes) :
    (s.feed state (payloads.flatMap Frame.ofPayload ++ tail)).failure =
      some (.write (.io .write)) := by
  induction payloads generalizing state with
  | nil => exact absurd (fun room _ => Nat.zero_le room) hrefuses
  | cons payload payloads ih =>
      have hdone := assembly_feed_cons hlimit hfresh hfits tail
      by_cases hfirst : state.sink.Accepts (s.answerFrame payload)
      · rw [(feed_of_payload state hdone).1 _ (reply_of_accepts hlimit hfirst)]
        -- the first answer is taken, so it is one of the others that is not
        refine ih rfl (fun p hp => hfits p (List.mem_cons_of_mem _ hp)) fun hothers => hrefuses ?_
        rw [List.flatMap_cons]
        exact Sink.accepts_append.2 ⟨hfirst, hothers⟩
      · rw [(feed_of_payload state hdone).2 _ _ (reply_of_not_accepts hlimit hfirst)]

/-- What has been sent after some answers, and what the counts then are. -/
theorem foldl_answered (state : Serving) (hfresh : state.assembly = .fresh)
    (haccepts : state.sink.Accepts (payloads.flatMap s.answerFrame)) :
    (payloads.foldl s.answered state).assembly = .fresh ∧
    (payloads.foldl s.answered state).sink.bytes = state.sink.bytes ++ payloads.flatMap
    s.answerFrame ∧
    (payloads.foldl s.answered state).served = ⟨state.served.requests + payloads.length,
      state.served.degraded + (payloads.map s.sent).countP Response.isDegraded⟩ := by
  induction payloads generalizing state with
  | nil => exact ⟨hfresh, by simp, rfl⟩
  | cons payload payloads ih =>
      obtain ⟨hfirst, hothers⟩ := accepts_flatMap_cons haccepts
      obtain ⟨hassembly, hbytes, hserved⟩ := ih (s.answered state payload) rfl hothers
      refine ⟨hassembly, ?_, ?_⟩
      · rw [List.foldl_cons, hbytes, answered, (Sink.write_of_accepts hfirst).2, List.flatMap_cons,
          List.append_assoc]
      · rw [List.foldl_cons, hserved, answered, List.map_cons, List.countP_cons, List.length_cons]
        cases hdegraded : (s.sent payload).isDegraded with
        | false => simp only [Served.mk.injEq]; exact ⟨by omega, by simp⟩
        | true => simp only [Served.mk.injEq]; exact ⟨by omega, by simp; omega⟩

end Server

/-! ## Streams

How a stream arrives does not matter, only its bytes and how it ends. -/

namespace Server

variable {α : Type} {s : Server α}

def conclude (served : Served) : FrameResult → Except ServeError Served
  | .ok _ => .ok served
  | .error e => .error (.read e)

/-- Where no more bytes come, what there is of a frame decides. -/
theorem finish_eq (state : Serving) :
    finish state = conclude state.served state.assembly.atEnd := by
  rw [finish]
  split
  · next h => rw [h, conclude]
  · next h => rw [h, conclude]

/-- The result of a server that took all bytes of a stream that ends in some way. -/
def outcome (ending : Ending) (fed : Fed) : Option (Except ServeError Served) :=
  match fed.failure with
  | some e => some (.error e)
  | none => (ending.after fed.state.assembly.atEnd).map (conclude fed.state.served)

/-- Only the bytes of a stream matter, and how it ends. -/
theorem serveFrom_eq (ending : Ending) (state : Serving) (arrivals : List Arrival) :
    let fed := s.feed state (arrivals.flatMap Arrival.content)
    (s.serveFrom ending state arrivals).1 = outcome ending fed ∧
      (s.serveFrom ending state arrivals).2.1 = fed.state := by
  induction arrivals generalizing state with
  | nil =>
      cases ending with
      | closed => exact ⟨congrArg some (finish_eq state), rfl⟩
      | refused => exact ⟨rfl, rfl⟩
      | silent => exact ⟨rfl, rfl⟩
  | cons arrival rest ih =>
      cases arrival with
      | bytes bs =>
          -- after a failure the bytes that follow are not looked at
          rw [List.flatMap_cons, Arrival.content]
          cases hfed : (s.feed state bs).failure with
          | none =>
              rw [(feed_append state bs _).1 hfed, serveFrom, hfed]
              exact ih (s.feed state bs).state
          | some e =>
              rw [(feed_append state bs _).2 e hfed, serveFrom, hfed]
              exact ⟨rfl, rfl⟩
      | interrupted => exact ih state
      | delay ms => exact ih state

/-- A server comes to what its bytes lead to, and leaves the sink so. -/
theorem serve_eq (source : Source) (sink : Sink) :
    (s.serve source sink).1 = outcome source.ending (s.feed (.initial sink) source.content) ∧
      (s.serve source sink).2.1 = (s.feed (.initial sink) source.content).state.sink := by
  obtain ⟨hresult, hstate⟩ := serveFrom_eq (s := s) source.ending (.initial sink) source.arrivals
  exact ⟨hresult, congrArg Serving.sink hstate⟩

/-- Behind the last whole frame nothing is sent, and the stream says how the server ends. -/
theorem outcome_unframed {state : Serving} (hfresh : state.assembly = .fresh) {tail : Bytes}
    (h : Frame.Unframed s.limit tail) (ending : Ending) :
    outcome ending (s.feed state tail) = (Frame.stop s.limit ending tail).map
      (conclude state.served) ∧
      (s.feed state tail).state.sink = state.sink := by
  rcases Assembly.feed_unframed h with ⟨a, hmore, hstop⟩ | ⟨e, rest, hdone, hstop⟩
  · rw [← hfresh] at hmore
    rw [feed_of_more hmore, hstop]
    exact ⟨rfl, rfl⟩
  · rw [← hfresh] at hdone
    obtain ⟨a, hfed⟩ := feed_of_error hdone
    rw [hfed, hstop]
    exact ⟨rfl, rfl⟩

/-- A server sends the answers to the whole frames of a stream, and ends as the rest of the stream
says. -/
theorem serve_of_split (hlimit : Frame.IsLimit s.limit) {source : Source} {payloads : List Bytes}
    {tail : Bytes} (hsplit : Frame.Split s.limit source.content payloads tail) {sink : Sink}
    (haccepts : sink.Accepts (payloads.flatMap s.answerFrame)) :
    (s.serve source sink).2.1.bytes = sink.bytes ++ payloads.flatMap s.answerFrame ∧
      (s.serve source sink).1 = (Frame.stop s.limit source.ending tail).map
        (conclude ⟨payloads.length, (payloads.map s.sent).countP Response.isDegraded⟩) := by
  obtain ⟨hresult, hsink⟩ := serve_eq (s := s) source sink
  obtain ⟨hassembly, hbytes, hserved⟩ := foldl_answered (.initial sink) rfl haccepts
  rw [hsplit.content_eq, feed_frames payloads hlimit rfl hsplit.fits haccepts] at hresult hsink
  obtain ⟨houtcome, hkept⟩ := outcome_unframed hassembly hsplit.unframed source.ending
  rw [Serving.initial, Nat.zero_add, Nat.zero_add] at hserved
  rw [hresult, hsink, houtcome, hkept, hbytes, ← hserved]
  exact ⟨rfl, rfl⟩

/-- A server ends early where its sink does not take all answers. -/
theorem serve_refused (hlimit : Frame.IsLimit s.limit) {source : Source} {payloads : List Bytes}
    {tail : Bytes} (hsplit : Frame.Split s.limit source.content payloads tail) {sink : Sink}
    (hrefuses : ¬ sink.Accepts (payloads.flatMap s.answerFrame)) :
    (s.serve source sink).1 = some (.error (.write (.io .write))) := by
  have hfailure : (s.feed (.initial sink) _).failure = _ :=
    feed_frames_refused hlimit rfl hsplit.fits hrefuses tail
  rw [(serve_eq source sink).1, hsplit.content_eq, outcome, hfailure]

/-! ## Every request is answered

The answer is now described without reference to how it is found: what is due, if it fits. -/

variable (s) in
/-- The answer to a payload, if there were no limit: what the engine says about the text, or that it
is none. -/
def due (payload : Bytes) : Response :=
  (decodeUtf8? payload).elim (.degraded "request payload is not valid UTF-8") s.engine.respond

/-- What is sent to answer a payload: what is due if it fits, and else that something failed. -/
structure IsAnswer (s : Server α) (payload : Bytes) (r : Response) : Prop where
  fits : r.render.length ≤ s.limit
  decodable : Response.parse? r.render = some r
  eq_due : (s.due payload).render.length ≤ s.limit → r = s.due payload
  degraded : s.limit < (s.due payload).render.length → r.tokens = [] ∧ r.isDegraded = true

theorem respond_eq_due (payload : Bytes) : s.respond payload = s.due payload := by
  rw [respond, due, Codec.decodeRequest]
  cases decodeUtf8? payload with
  | none => rfl
  | some source => rfl

/-- What is sent is an answer in this sense. -/
theorem sent_isAnswer (hlimit : Frame.IsLimit s.limit) (payload : Bytes) :
    s.IsAnswer payload (s.sent payload) := by
  refine ⟨(sent_fits hlimit payload).2, Response.parse?_render _, fun h => ?_, fun h => ?_⟩
  · rw [← respond_eq_due] at h ⊢
    exact if_pos h
  · rw [← respond_eq_due] at h
    rw [sent, if_neg (Nat.not_le.2 h)]
    obtain ⟨text, htext⟩ := excuse_degraded (s := s)
      (.tooLarge (s.respond payload).render.length s.limit)
    rw [htext]
    exact ⟨rfl, rfl⟩

/-- A server ends well exactly if its stream does. -/
theorem conclude_eq_ok_iff {served : Served} {stop : Option FrameResult} :
    (∃ total, stop.map (conclude served) = some (.ok total)) ↔ ∃ r, stop = some (.ok r) := by
  constructor
  · rintro ⟨total, h⟩
    obtain ⟨r, rfl, hr⟩ := Option.map_eq_some_iff.1 h
    cases r with
    | ok payload => exact ⟨payload, rfl⟩
    | error e => cases hr
  · rintro ⟨r, rfl⟩
    exact ⟨served, rfl⟩

/-- **A server answers every request that arrives in a whole frame**, whatever its engine does and
whatever bytes come, with one answer for each in their order. As long as there is room for the
answers, only the stream decides how the server ends, and it ends well exactly where the stream is
closed between frames. -/
theorem serve_answers_every_request (s : Server α) (hlimit : Frame.IsLimit s.limit)
    (source : Source) :
    (∃ payloads tail, Frame.Split s.limit source.content payloads tail) ∧
    ∀ payloads tail, Frame.Split s.limit source.content payloads tail →
      ∃ responses, List.Forall₂ s.IsAnswer payloads responses ∧
        let frames := responses.flatMap fun r => Frame.ofPayload r.render
        ∀ sink : Sink,
          (sink.Accepts frames →
            (s.serve source sink).2.1.bytes = sink.bytes ++ frames ∧
            (s.serve source sink).1 = (Frame.stop s.limit source.ending tail).map
              (conclude ⟨payloads.length, responses.countP Response.isDegraded⟩) ∧
            ((∃ served, (s.serve source sink).1 = some (.ok served)) ↔ source.ending = .closed ∧
              tail = [])) ∧
          (¬ sink.Accepts frames → (s.serve source sink).1 =
            some (.error (.write (.io .write)))) := by
  refine ⟨Frame.exists_split _ _, fun payloads tail hsplit => ⟨payloads.map s.sent, ?_, ?_⟩⟩
  · rw [List.forall₂_map_right_iff]
    exact List.forall₂_same.2 fun p _ => sent_isAnswer hlimit p
  · intro frames sink
    -- what is sent for each payload, in their order
    have hframes : frames = payloads.flatMap s.answerFrame := List.flatMap_map ..
    rw [hframes]
    constructor
    · intro haccepts
      obtain ⟨hbytes, hresult⟩ := serve_of_split hlimit hsplit haccepts
      refine ⟨hbytes, hresult, ?_⟩
      rw [hresult]
      exact conclude_eq_ok_iff.trans Frame.stop_eq_ok_iff
    · exact serve_refused hlimit hsplit

/-- At the least limit, a text, a request that is no text and the start of a third frame get two
answers. -/
theorem serve_answers_every_request_truncated :
    let s : Server Grammar.Label := ⟨.csharp .standard 100 10, Frame.clampLimit 0⟩
    let source : Source := ⟨[.bytes [4, 0, 0], .interrupted, .bytes [0, 101, 110, 117, 109],
      .bytes [1, 0, 0, 0, 0xFF, 7, 0]], .closed⟩
    ∃ first second, s.IsAnswer [101, 110, 117, 109] first ∧ s.IsAnswer [0xFF] second ∧
      (s.serve source (.ofRoom none)).2.1.bytes =
        Frame.ofPayload first.render ++ Frame.ofPayload second.render ∧
      (s.serve source (.ofRoom none)).1 = some (.error (.read (.truncated 4 2))) ∧
      (s.serve source (.ofRoom (some 3))).1 = some (.error (.write (.io .write))) := by
  intro s source
  have hsplit : Frame.Split s.limit source.content [[101, 110, 117, 109], [0xFF]] [7, 0] :=
    ⟨by decide, by decide, Frame.unframed_of_short (by decide)⟩
  obtain ⟨responses, hall, hserve⟩ :=
    (serve_answers_every_request s (Or.inr ⟨0, rfl⟩) source).2 _ _ hsplit
  obtain _ | ⟨hfirst, _ | ⟨hsecond, _ | _⟩⟩ := hall
  obtain ⟨hbytes, hresult, -⟩ := (hserve (.ofRoom none)).1 (Sink.accepts_of_unlimited rfl)
  refine ⟨_, _, hfirst, hsecond, ?_, hresult, (hserve (.ofRoom (some 3))).2 fun haccepts => ?_⟩
  · simpa [Sink.ofRoom, Sink.bytes] using hbytes
  · have hroom := haccepts 3 rfl
    rw [List.flatMap_cons, List.length_append, Frame.length_ofPayload] at hroom
    omega

end Server

end SharpTokens
