import SharpTokens.Client
import SharpTokens.Proofs.Server.Answers

/-!
# Calls step by step

A call of a client is taken apart into steps that something else may come between: a request is
written in pieces, an answer is read in pieces, and at any point the time may be over, a stream may
fail, or the caller may stop waiting. A call that runs on streams is a run of such steps
(`Caller.tokenize_onStreams`), so what holds after every step holds of such calls, wherever they are
left.

What is written and read is kept with each call, so that statements about all calls of a client can
be made about the bytes they left on its streams.
-/

namespace SharpTokens

/-! ## Steps

A step may be taken at any time that its premises allow: nothing is said about how long anything
takes. -/

/-- How far a call is: what is left of its request, or what there is of its answer. -/
inductive Stage where
  | writing (left : Bytes)
  | reading (assembly : Assembly)

/-- A call under way, with all bytes that it wrote and read. -/
structure Call where
  source : String
  stage : Stage
  written : Bytes
  read : Bytes

/-- A call that is over, with its result unless the caller stopped waiting, all bytes that it wrote
and read, and whether it left the client open. -/
structure PastCall where
  source : String
  result : Option CallResult
  written : Bytes
  read : Bytes
  leftOpen : Bool

/-- A client with its calls, of which the last one may be under way. -/
structure Caller where
  client : Client
  call : Option Call
  past : List PastCall

/-- What passes between a client and its channel in a step. -/
inductive Passage where
  | nothing
  | sends (bs : Bytes)
  | takes (bs : Bytes)
  /-- the client finds the channel closed -/
  | ends

namespace Passage

def sent : Passage → Bytes
  | .sends bs => bs
  | _ => []

def taken : Passage → Bytes
  | .takes bs => bs
  | _ => []

end Passage

namespace Caller

def finished (c : Client) (past : List PastCall) (call : Call)
    (result : Option CallResult) : Caller :=
  ⟨c, none, past ++ [⟨call.source, result, call.written, call.read, !c.closed⟩]⟩

def settled (c : Client) (past : List PastCall) (call : Call) (frame : FrameResult) : Caller :=
  finished (c.settle (c.interpret frame)) past call (some (c.interpret frame))

/-- What can happen to a client next. -/
inductive Step : Caller → Passage → Caller → Prop
  | refuse {c c' : Client} {past : List PastCall} {source : String} {result : CallResult}
      (h : c.start source = (.over result, c')) :
      Step ⟨c, none, past⟩ .nothing (finished c' past ⟨source, .writing [], [], []⟩ (some result))
  | request {c c' : Client} {past : List PastCall} {source : String} {frame : Bytes}
      (h : c.start source = (.request frame, c')) :
      Step ⟨c, none, past⟩ .nothing ⟨c', some ⟨source, .writing frame, [], []⟩, past⟩
  | write {c : Client} {past : List PastCall} {source : String} {frame w r bs left : Bytes}
      (h : frame = bs ++ left) :
      Step ⟨c, some ⟨source, .writing frame, w, r⟩, past⟩ (.sends bs)
        ⟨c, some ⟨source, .writing left, w ++ bs, r⟩, past⟩
  | await {c : Client} {past : List PastCall} {source : String} {w r : Bytes} :
      Step ⟨c, some ⟨source, .writing [], w, r⟩, past⟩ .nothing
        ⟨c, some ⟨source, .reading .fresh, w, r⟩, past⟩
  | read {c : Client} {past : List PastCall} {source : String} {w r bs : Bytes} {a a' : Assembly}
      (h : a.feed c.codec.limit bs = .more a') :
      Step ⟨c, some ⟨source, .reading a, w, r⟩, past⟩ (.takes bs)
        ⟨c, some ⟨source, .reading a', w, r ++ bs⟩, past⟩
  /-- a frame is there, or its length is wrong -/
  | settle {c : Client} {past : List PastCall} {source : String} {w r bs : Bytes} {a : Assembly}
      {result : Except FrameError Bytes} (h : a.feed c.codec.limit bs = .done result []) :
      Step ⟨c, some ⟨source, .reading a, w, r⟩, past⟩ (.takes bs)
        (settled c past ⟨source, .reading a, w, r ++ bs⟩ (result.map some))
  | hungUp {c : Client} {past : List PastCall} {source : String} {w r : Bytes} {a : Assembly} :
      Step ⟨c, some ⟨source, .reading a, w, r⟩, past⟩ .ends
        (settled c past ⟨source, .reading a, w, r⟩ a.atEnd)
  | readFails {c : Client} {past : List PastCall} {source : String} {w r : Bytes} {a : Assembly} :
      Step ⟨c, some ⟨source, .reading a, w, r⟩, past⟩ .nothing
        (settled c past ⟨source, .reading a, w, r⟩ (.error (.io .read)))
  | writeFails {c : Client} {past : List PastCall} {source : String} {w r left : Bytes} :
      Step ⟨c, some ⟨source, .writing left, w, r⟩, past⟩ .nothing
        (finished c past ⟨source, .writing left, w, r⟩ (some (.error (.frame (.io .write)))))
  | expire {c : Client} {past : List PastCall} {call : Call} {ms : Nat} (h : c.timeout = some ms) :
      Step ⟨c, some call, past⟩ .nothing (finished c past call (some (.error (.timeout ms))))
  /-- the caller stops waiting -/
  | drop {c : Client} {past : List PastCall} {call : Call} :
      Step ⟨c, some call, past⟩ .nothing (finished c past call none)

def written (x : Caller) : Bytes := x.past.flatMap PastCall.written ++ x.call.elim [] Call.written

def read (x : Caller) : Bytes := x.past.flatMap PastCall.read ++ x.call.elim [] Call.read

/-- What a client has written grows by what it sends. -/
theorem Step.written_eq {x y : Caller} {k : Passage} (h : Step x k y) :
    y.written = x.written ++ k.sent := by
  cases h
  all_goals simp [written, finished, settled, Passage.sent]

/-- What it has read grows by what it takes. -/
theorem Step.read_eq {x y : Caller} {k : Passage} (h : Step x k y) :
    y.read = x.read ++ k.taken := by
  cases h
  all_goals simp [Caller.read, finished, settled, Passage.taken]

/-! ## Calls on streams

The function that runs a call on streams waits for whole frames. It is taken apart into the reads
that it does. -/

inductive Run : Caller → List Passage → Caller → Prop
  | refl {x : Caller} : Run x [] x
  | step {x y z : Caller} {k : Passage} {ks : List Passage} (h : Step x k y) (hrest : Run y ks z) :
      Run x (k :: ks) z

theorem Run.snoc {x y z : Caller} {k : Passage} {ks : List Passage} (hrun : Run x ks y)
    (h : Step y k z) :
    Run x (ks ++ [k]) z := by
  induction hrun with
  | refl => exact .step h .refl
  | step hfirst _ ih => exact .step hfirst (ih h)

/-- Where a call is when its client waited for a frame. -/
def waited (c : Client) (past : List PastCall) (call : Call) : Awaited → Caller
  | .done frame => settled c past call frame
  | _ => ⟨c, some call, past⟩

/-- Waiting for a frame takes bytes, step by step. -/
theorem awaitFrom_isRun (c : Client) (past : List PastCall) (source : String) (w r : Bytes)
    (deadline : Option Nat) (ending : Ending) (elapsed : Nat) (a : Assembly)
    (arrivals : List Arrival) :
    ∃ (ks : List Passage) (a' : Assembly),
      Run ⟨c, some ⟨source, .reading a, w, r⟩, past⟩ ks
        (waited c past ⟨source, .reading a', w, r ++ ks.flatMap Passage.taken⟩
          (Source.awaitFrom c.codec.limit deadline ending elapsed a arrivals).1) ∧
      ks.flatMap Passage.sent = [] ∧
      arrivals.flatMap Arrival.content = ks.flatMap Passage.taken ++
        (Source.awaitFrom c.codec.limit deadline ending elapsed a arrivals).2.flatMap
        Arrival.content ∧
      (.ends ∈ ks → ending = .closed) := by
  induction arrivals generalizing elapsed a r with
  | nil =>
      cases ending with
      | closed =>
          refine ⟨[.ends], a, ?_, rfl, rfl, fun _ => rfl⟩
          simpa [Source.awaitFrom, Passage.taken, waited] using Run.step Step.hungUp .refl
      | refused =>
          refine ⟨[.nothing], a, ?_, rfl, rfl, by simp⟩
          simpa [Source.awaitFrom, Passage.taken, waited] using Run.step Step.readFails .refl
      | silent =>
          -- nothing ever comes: the time is over, or the call hangs
          refine ⟨[], a, ?_, rfl, rfl, by simp⟩
          cases deadline with
          | none => simpa [Source.awaitFrom, waited] using Run.refl
          | some d => simpa [Source.awaitFrom, waited] using Run.refl
  | cons arrival rest ih =>
      cases arrival with
      | interrupted => exact ih r elapsed a
      | delay ms =>
          rw [Source.awaitFrom]
          split
          · refine ⟨[], a, ?_, rfl, rfl, by simp⟩
            simpa [waited] using Run.refl
          · exact ih r (elapsed + ms) a
      | bytes bs =>
          rw [Source.awaitFrom, List.flatMap_cons, Arrival.content]
          split
          · next a' hfeed =>
            obtain ⟨ks, a'', hrun, hsent, hcontent, hends⟩ := ih (r ++ bs) elapsed a'
            refine ⟨.takes bs :: ks, a'', ?_, hsent, ?_, ?_⟩
            · rw [List.flatMap_cons, ← List.append_assoc]
              exact .step (.read hfeed) hrun
            · rw [hcontent, List.flatMap_cons, List.append_assoc]
              rfl
            · simpa using hends
          · next result left hfeed =>
            -- the step takes only the bytes of the frame, since what is behind goes back to the
            -- stream
            obtain ⟨got, rfl, hgot⟩ := Assembly.exists_of_feed_done hfeed
            refine ⟨[.takes got], a, ?_, rfl, ?_, by simp⟩
            · simpa [Passage.taken, waited] using Run.step (Step.settle hgot) .refl
            · rw [Source.content_putBack, ← List.append_assoc]
              simp [Passage.taken]

/-- Waiting for a frame is reading what arrives, piece by piece. -/
theorem awaitFrame_isRun (c : Client) (past : List PastCall) (source : String) (w : Bytes)
    (deadline : Option Nat) (stream : Source) :
    ∃ (ks : List Passage) (a : Assembly),
      Run ⟨c, some ⟨source, .reading .fresh, w, []⟩, past⟩ ks
        (waited c past ⟨source, .reading a, w, ks.flatMap Passage.taken⟩
          (stream.awaitFrame c.codec.limit deadline).1) ∧
      ks.flatMap Passage.sent = [] ∧
      stream.content = ks.flatMap Passage.taken ++
      (stream.awaitFrame c.codec.limit deadline).2.content ∧
      (.ends ∈ ks → stream.ending = .closed) :=
  awaitFrom_isRun c past source w [] deadline stream.ending 0 .fresh stream.arrivals

/-- Where a call is by what its caller sees of it. -/
def seen (c : Client) (past : List PastCall) (call : Call) : Client.Reply Response → Caller
  | .result r => finished c past call (some r)
  | .abandoned => finished c past call none
  | .stuck => ⟨c, some call, past⟩

/-- Who gives up is the client at its timeout, or the caller. -/
theorem step_giveUp (c : Client) (past : List PastCall) (call : Call) (patience : Option Nat) :
    Step ⟨c, some call, past⟩ .nothing (seen c past call (c.giveUp patience)) := by
  unfold Client.giveUp
  split
  · next hlimit =>
    split
    · exact .expire hlimit
    · exact .drop
  · next hlimit => exact .expire hlimit
  · exact .drop

/-- A call on streams, taken apart into steps that end in the same result and with the same client,
and that write to one stream and read from the other what the call does. -/
def OnStreams (c : Client) (wire : Client.Wire) (source : String) (patience : Option Nat)
    (past : List PastCall) : Prop :=
  ∃ (ks : List Passage) (stage : Stage),
    Run ⟨c, none, past⟩ ks (seen (c.tokenize wire source patience).2.1 past
      ⟨source, stage, ks.flatMap Passage.sent, ks.flatMap Passage.taken⟩
      (c.tokenize wire source patience).1) ∧
    (c.tokenize wire source patience).2.2.sink.bytes = wire.sink.bytes ++ ks.flatMap Passage.sent ∧
    wire.source.content = ks.flatMap Passage.taken ++
    (c.tokenize wire source patience).2.2.source.content ∧
    (.ends ∈ ks → wire.source.ending = .closed)

/-- **A call on streams is a run of steps.** -/
theorem tokenize_onStreams (c : Client) (wire : Client.Wire) (source : String)
    (patience : Option Nat) (past : List PastCall) : OnStreams c wire source patience past := by
  rw [OnStreams, Client.tokenize]
  split
  · next hstart =>
    exact ⟨[.nothing], .writing [], .step (.refuse hstart) .refl, (List.append_nil _).symm,
      rfl, by simp⟩
  · next frame c' hstart =>
    by_cases haccepts : wire.sink.Accepts frame
    · obtain ⟨hok, hbytes⟩ := Sink.write_of_accepts haccepts
      rw [show wire.sink.write frame = (.ok (), _) from Prod.ext hok rfl]
      have hall := (List.append_nil frame).symm
      obtain ⟨ks, a, hrun, hsent, hcontent, hends⟩ := awaitFrame_isRun c' past source frame
        (Client.sooner c'.timeout patience) wire.source
      -- whatever comes of the waiting, the run up to there is this
      have hbefore := Run.step (.request hstart) (.step (.write hall) (.step .await hrun))
      generalize wire.source.awaitFrame c'.codec.limit (Client.sooner c'.timeout patience) = awaited
        at hbefore hcontent ⊢
      obtain ⟨awaited, stream⟩ := awaited
      cases awaited with
      | stuck =>
          refine ⟨.nothing :: .sends frame :: .nothing :: ks, .reading a, ?_, ?_,
            hcontent, by simpa using hends⟩
          · simpa [Passage.sent, Passage.taken, hsent, waited, seen] using hbefore
          · simpa [Passage.sent, hsent] using hbytes
      | done received =>
          refine ⟨.nothing :: .sends frame :: .nothing :: ks, .reading a, ?_, ?_,
            hcontent, by simpa using hends⟩
          · simpa [Passage.sent, Passage.taken, hsent, waited, settled, seen] using hbefore
          · simpa [Passage.sent, hsent] using hbytes
      | expired =>
          have hgiveUp := step_giveUp c' past ⟨source, .reading a, frame,
            ks.flatMap Passage.taken⟩ patience
          refine ⟨.nothing :: .sends frame :: .nothing :: ks ++ [.nothing], .reading a,
            ?_, ?_, ?_, ?_⟩
          · simpa [Passage.sent, Passage.taken, hsent] using hbefore.snoc hgiveUp
          · simpa [Passage.sent, hsent] using hbytes
          · simpa [Passage.taken] using hcontent
          · simpa using hends
    · -- a part of the request is written, and then writing fails
      obtain ⟨herror, k, -, hbytes⟩ := Sink.write_of_not_accepts haccepts
      rw [show wire.sink.write frame = (.error (.io .write), _) from Prod.ext herror rfl]
      refine ⟨[.nothing, .sends (frame.take k), .nothing], .writing (frame.drop k), ?_, ?_,
        rfl, by simp⟩
      · have hpart := (List.take_append_drop k frame).symm
        simpa [Passage.sent, Passage.taken, seen] using
          Run.step (.request hstart) (.step (.write hpart) (.step .writeFails .refl))
      · simpa [Passage.sent] using hbytes

end Caller

end SharpTokens
