import SharpTokens.Proofs.Link.Calls

/-!
# The history of a client

A client has a simple history, whatever comes in for it (`Caller.Tidy`): calls that left it open,
then perhaps one that broke off and closed it, and from then on only calls that it rejects. A call
that left the client open wrote nothing, or wrote its request and read one whole frame. What such a
frame may be is left open here, as a relation between the payloads of requests and answers.

`Caller.Tidy` is an invariant of every step of a client, for any relation between requests and
answers that holds of the frames it reads. The server comes in later, as one such relation. From the
invariant it can be told of each call by its result alone what it did to the channel
(`Caller.Cautious`).
-/

namespace SharpTokens

open Text

/-! ## The ends of a call

A call is over at once, or it writes a request. What it ends with is decided by what came in: a
whole frame leaves the client open, whatever is in it, and all else closes it. -/

namespace Client

/-- A call that is over at once leaves the client as it is. -/
theorem start_over {c c' : Client} {source : String} {result : CallResult}
    (h : c.start source = (.over result, c')) :
    c' = c ∧ (c.closed = true ∧ result = .error .closed ∨
      c.closed = false ∧ (source = "" ∧ result = .ok (.ofTokens []) ∨
        ∃ e, c.codec.encodeRequest source = .error e ∧ result = .error (.frame e))) := by
  rw [start] at h
  split at h
  · next hclosed =>
    cases h
    exact ⟨rfl, .inl ⟨hclosed, rfl⟩⟩
  · next hopen =>
    have hopen : c.closed = false := Bool.eq_false_iff.2 hopen
    split at h
    · next hempty =>
      cases h
      exact ⟨rfl, .inr ⟨hopen, .inl ⟨String.isEmpty_iff.1 hempty, rfl⟩⟩⟩
    · split at h
      · next e hencode =>
        cases h
        exact ⟨rfl, .inr ⟨hopen, .inr ⟨e, hencode, rfl⟩⟩⟩
      · cases h

/-- A call with a request closes the client, until there is an answer. -/
theorem start_request {c c' : Client} {source : String} {frame : Bytes}
    (h : c.start source = (.request frame, c')) :
    c.closed = false ∧ c.codec.encodeRequest source = .ok frame ∧
      c' = { c with closed := true } := by
  rw [start] at h
  split at h
  · cases h
  · next hopen =>
    split at h
    · cases h
    · split at h
      · cases h
      · next hencode =>
        cases h
        exact ⟨Bool.eq_false_iff.2 hopen, hencode, rfl⟩

/-- A text that fits a frame is sent. -/
theorem start_of_fits {c : Client} {source : String} (hopen : c.closed = false)
    (hlimit : c.codec.limit ≤ Frame.maxLength)
    (hfits : Frame.Fits c.codec.limit (encodeUtf8 source)) :
    c.start source = (.request (Frame.ofPayload (encodeUtf8 source)),
      { c with closed := true }) := by
  have hsource : source.isEmpty = false := by
    rw [Bool.eq_false_iff]
    intro hempty
    rw [String.isEmpty_iff.1 hempty] at hfits
    exact absurd hfits.1 (by decide)
  have hencode : c.codec.encodeRequest source = .ok (Frame.ofPayload (encodeUtf8 source)) :=
    Frame.encode_eq_ok hlimit hfits
  simp only [start, hopen, hsource, hencode]
  rfl

end Client

namespace Codec

/-- The error about a token says where it is and what it has. -/
theorem strayToken?_eq {l : Legend} {index : Nat} {tokens : List Token} {e : FrameError}
    (h : strayToken? l index tokens = some e) :
    ∃ i type modifiers, e = .outOfLegend i type modifiers := by
  induction tokens generalizing index with
  | nil => cases h
  | cons t tokens ih =>
      rw [strayToken?] at h
      split at h
      · exact ih h
      · cases h
        exact ⟨_, _, _, rfl⟩

/-- A payload has no answer in it, or one that is not in terms of the legend. -/
theorem decodeResponse_eq_error {c : Codec} {payload : Bytes} {e : FrameError}
    (h : c.decodeResponse payload = .error e) :
    e = .malformed ∨ ∃ i type modifiers, e = .outOfLegend i type modifiers := by
  rw [decodeResponse] at h
  split at h
  · cases h
    exact .inl rfl
  · split at h
    · next hstray =>
      cases h
      obtain ⟨l, -, hl⟩ := Option.bind_eq_some_iff.1 hstray
      exact .inr (strayToken?_eq hl)
    · cases h

/-- What is read from a payload that was written is what was written. -/
theorem eq_of_decodeResponse_render {c : Codec} {r r' : Response}
    (h : c.decodeResponse r.render = .ok r') :
    r' = r := by
  rw [decodeResponse, Response.parse?_render] at h
  simp only at h
  split at h
  · cases h
  · exact (Except.ok.inj h).symm

end Codec

namespace Client

/-- A whole frame is an answer, or the error is about what is in it. -/
theorem interpret_payload (c : Client) (payload : Bytes) :
    c.interpret (.ok (some payload)) = (c.codec.decodeResponse payload).mapError .frame := by
  rw [interpret]
  cases c.codec.decodeResponse payload with
  | ok r => rfl
  | error e => rfl

/-- A whole frame opens the client again, whatever is in it. -/
theorem settle_payload (c : Client) (payload : Bytes) :
    c.settle (c.interpret (.ok (some payload))) = { c with closed := false } := by
  rw [interpret_payload]
  cases hdecode : c.codec.decodeResponse payload with
  | ok r => rfl
  | error e =>
      rcases Codec.decodeResponse_eq_error hdecode with rfl | ⟨i, type, modifiers, rfl⟩
      · rfl
      · rfl

end Client

/-- A frame is over before it starts, or cut short. -/
theorem Assembly.atEnd_eq (a : Assembly) :
    a.atEnd = .ok none ∨ ∃ e, a.atEnd = .error e ∧ e.isFatal = true := by
  cases a with
  | header got =>
      rw [Assembly.atEnd]
      split
      · exact .inl rfl
      · exact .inr ⟨_, rfl, rfl⟩
  | body length got => exact .inr ⟨_, rfl, rfl⟩

/-! ## Calls that are over

The three kinds that there are. An error is harmless exactly if the client is open after it. -/

namespace PastCall

/-- An error that leaves the channel between frames: the request was refused before anything was
sent, or a whole frame came, in which there is no answer or one that is not in terms of the
legend. -/
def Harmless (codec : Codec) (p : PastCall) (e : ClientError) : Prop :=
  (p.written = [] ∧ p.read = [] ∧ ∃ reason, codec.encodeRequest p.source = .error reason ∧
    e = .frame reason) ∨
  (p.written = Frame.ofPayload (encodeUtf8 p.source) ∧
    (∃ payload, p.read = Frame.ofPayload payload) ∧
    (e = .frame .malformed ∨ ∃ i type modifiers, e = .frame (.outOfLegend i type modifiers)))

/-- A call that left the client open: it sent nothing, or it sent its request and took a whole frame
for it. -/
inductive Kept (answers : Bytes → Bytes → Prop) (codec : Codec) : PastCall → Prop
  | empty : Kept answers codec ⟨"", some (.ok (.ofTokens [])), [], [], true⟩
  | refused {source : String} {e : FrameError} (h : codec.encodeRequest source = .error e) :
      Kept answers codec ⟨source, some (.error (.frame e)), [], [], true⟩
  | exchanged {source : String} {payload : Bytes} (h : Frame.Fits codec.limit (encodeUtf8 source))
      (hanswer : answers (encodeUtf8 source) payload) :
      Kept answers codec ⟨source, some ((codec.decodeResponse payload).mapError .frame),
        Frame.ofPayload (encodeUtf8 source), Frame.ofPayload payload, true⟩

/-- A call that closed the client: it was to send a request and did not get a frame for it. -/
inductive Broken (codec : Codec) : PastCall → Prop
  | mk {source : String} {result : Option CallResult} {frame w r : Bytes}
      (h : codec.encodeRequest source = .ok frame)
      (hresult : ∀ outcome, result = some outcome → ∃ e, outcome = .error e ∧
        e.isRecoverable = false) :
      Broken codec ⟨source, result, w, r, false⟩

/-- A call of a closed client. -/
inductive Rejected : PastCall → Prop
  | mk {source : String} : Rejected ⟨source, some (.error .closed), [], [], false⟩

variable {answers : Bytes → Bytes → Prop} {codec : Codec} {p : PastCall} {e : ClientError}

/-- A call that kept the client open has a harmless error, if any. -/
theorem Kept.harmless (h : p.Kept answers codec) (herror : p.result = some (.error e)) :
    p.leftOpen = true ∧ p.Harmless codec e := by
  cases h with
  | empty => cases herror
  | refused hencode =>
      cases herror
      exact ⟨rfl, .inl ⟨rfl, rfl, _, hencode, rfl⟩⟩
  | @exchanged source payload hfits hanswer =>
      refine ⟨rfl, .inr ⟨rfl, ⟨payload, rfl⟩, ?_⟩⟩
      have hresult := Option.some.inj herror
      cases hdecode : codec.decodeResponse payload with
      | ok r =>
          rw [hdecode] at hresult
          cases hresult
      | error reason =>
          rw [hdecode] at hresult
          cases hresult
          rcases Codec.decodeResponse_eq_error hdecode with rfl | ⟨i, type, modifiers, rfl⟩
          · exact .inl rfl
          · exact .inr ⟨i, type, modifiers, rfl⟩

/-- A call that closed the client has none. -/
theorem Broken.not_harmless (h : p.Broken codec) (herror : p.result = some (.error e)) :
    p.leftOpen = false ∧ ¬ p.Harmless codec e := by
  cases h with
  | mk hencode hresult =>
      obtain ⟨_, ⟨⟩, hrecover⟩ := hresult _ herror
      refine ⟨rfl, ?_⟩
      rintro (⟨-, -, reason, hreason, -⟩ | ⟨-, -, rfl | ⟨i, type, modifiers, rfl⟩⟩)
      · cases hencode.symm.trans hreason
      · cases hrecover
      · cases hrecover

/-- Nor has one that found it closed. -/
theorem Rejected.not_harmless (h : p.Rejected) (herror : p.result = some (.error e)) :
    p.leftOpen = false ∧ ¬ p.Harmless codec e := by
  cases h with
  | mk =>
      cases herror
      refine ⟨rfl, ?_⟩
      rintro (⟨-, -, reason, -, h⟩ | ⟨-, -, h | ⟨i, type, modifiers, h⟩⟩)
      all_goals cases h

end PastCall

/-! ## Clients with their calls

One lemma for each way in which a call can end, and the step lemma from them. -/

namespace Caller

variable {answers : Bytes → Bytes → Prop} {codec : Codec}

/-- How a client comes by its calls: as long as it is open all of them were kept, and once one was
broken all others are rejected. -/
inductive Tidy (answers : Bytes → Bytes → Prop) (codec : Codec) : Caller → Prop
  | idle {timeout : Option Nat} {past : List PastCall} (hpast : ∀ p ∈ past, p.Kept answers codec) :
      Tidy answers codec ⟨⟨codec, timeout, false⟩, none, past⟩
  | writing {timeout : Option Nat} {past : List PastCall} {source : String} {w left : Bytes}
      (hpast : ∀ p ∈ past, p.Kept answers codec)
      (hframe : codec.encodeRequest source = .ok (w ++ left)) :
      Tidy answers codec ⟨⟨codec, timeout, true⟩, some ⟨source, .writing left, w, []⟩, past⟩
  | reading {timeout : Option Nat} {past : List PastCall} {source : String} {w r : Bytes}
      {a : Assembly} (hpast : ∀ p ∈ past, p.Kept answers codec)
      (hframe : codec.encodeRequest source = .ok w)
      (hread : Assembly.fresh.feed codec.limit r = .more a) :
      Tidy answers codec ⟨⟨codec, timeout, true⟩, some ⟨source, .reading a, w, r⟩, past⟩
  | closed {timeout : Option Nat} {before after : List PastCall} {last : PastCall}
      (hbefore : ∀ p ∈ before, p.Kept answers codec) (hlast : last.Broken codec)
      (hafter : ∀ p ∈ after, p.Rejected) :
      Tidy answers codec ⟨⟨codec, timeout, true⟩, none, before ++ last :: after⟩

/-- A call that ends without an answer. -/
theorem tidy_over {timeout : Option Nat} {past : List PastCall} {call : Call} {frame : Bytes}
    {result : Option CallResult} (hpast : ∀ p ∈ past, p.Kept answers codec)
    (hframe : codec.encodeRequest call.source = .ok frame)
    (hresult : ∀ outcome, result = some outcome → ∃ e, outcome = .error e ∧
      e.isRecoverable = false) :
    Tidy answers codec (finished ⟨codec, timeout, true⟩ past call result) :=
  .closed hpast (.mk hframe hresult) (by simp)

/-- The same, where no whole frame came in. -/
theorem tidy_settled {timeout : Option Nat} {past : List PastCall} {call : Call} {frame : Bytes}
    {received : FrameResult} (hpast : ∀ p ∈ past, p.Kept answers codec)
    (hframe : codec.encodeRequest call.source = .ok frame)
    (hreceived : received = .ok none ∨ ∃ e, received = .error e ∧ e.isFatal = true) :
    Tidy answers codec (settled ⟨codec, timeout, true⟩ past call received) := by
  rcases hreceived with rfl | ⟨e, rfl, hfatal⟩
  · exact tidy_over hpast hframe fun outcome h => ⟨.disconnected, (Option.some.inj h).symm, rfl⟩
  · have hrecover : (ClientError.frame e).isRecoverable = false := by
      rw [ClientError.isRecoverable, hfatal]; rfl
    have hsettle : Client.settle ⟨codec, timeout, true⟩ (.error (.frame e)) =
        ⟨codec, timeout, true⟩ := by
      rw [Client.settle, hrecover]
      rfl
    rw [settled, Client.interpret, hsettle]
    exact tidy_over hpast hframe fun outcome h => ⟨.frame e, (Option.some.inj h).symm, hrecover⟩

/-- A call that ends with a whole frame. -/
theorem tidy_exchanged {timeout : Option Nat} {past : List PastCall} {source : String}
    {stage : Stage} {w payload : Bytes} (hpast : ∀ p ∈ past, p.Kept answers codec)
    (hframe : codec.encodeRequest source = .ok w) (hanswer : answers (encodeUtf8 source) payload) :
    Tidy answers codec
      (settled ⟨codec, timeout, true⟩ past ⟨source, stage, w, Frame.ofPayload payload⟩
        (.ok (some payload))) := by
  obtain ⟨rfl, hfits⟩ := Frame.eq_ofPayload_of_encode hframe
  rw [settled, Client.settle_payload, Client.interpret_payload]
  exact .idle (List.forall_mem_append.2 ⟨hpast,
    List.forall_mem_singleton.2 (.exchanged hfits hanswer)⟩)

/-- **What a step does to a client's calls**, if a frame that comes in may be the answer to the
request. -/
theorem Step.tidy (hlimit : Frame.IsLimit codec.limit) {x y : Caller} {k : Passage}
    (hstep : Step x k y) (h : Tidy answers codec x)
    (hanswer : ∀ call bs payload, x.call = some call → k = .takes bs →
      call.read ++ bs = Frame.ofPayload payload →
      payload.length ≤ Frame.maxLength → answers (encodeUtf8 call.source) payload) :
    Tidy answers codec y := by
  cases hstep with
  | refuse hstart =>
      obtain ⟨rfl, hresult⟩ := Client.start_over hstart
      cases h with
      | idle hpast =>
          rcases hresult with ⟨hclosed, -⟩ | ⟨-, ⟨rfl, rfl⟩ | ⟨e, hencode, rfl⟩⟩
          · cases hclosed
          · exact .idle (List.forall_mem_append.2 ⟨hpast, List.forall_mem_singleton.2 .empty⟩)
          · exact .idle (List.forall_mem_append.2 ⟨hpast,
              List.forall_mem_singleton.2 (.refused hencode)⟩)
      | closed hbefore hlast hafter =>
          rcases hresult with ⟨-, rfl⟩ | ⟨hopen, -⟩
          · rw [finished, List.append_assoc, List.cons_append]
            exact .closed hbefore hlast (List.forall_mem_append.2 ⟨hafter,
              List.forall_mem_singleton.2 .mk⟩)
          · cases hopen
  | request hstart =>
      obtain ⟨hopen, hencode, rfl⟩ := Client.start_request hstart
      cases h with
      | idle hpast => exact .writing hpast hencode
      | closed => cases hopen
  | write hsplit =>
      cases h with
      | writing hpast hframe =>
          rw [hsplit, ← List.append_assoc] at hframe
          exact .writing hpast hframe
  | await =>
      cases h with
      | writing hpast hframe =>
          rw [List.append_nil] at hframe
          exact .reading hpast hframe rfl
  | read hfeed =>
      cases h with
      | reading hpast hframe hread =>
          exact .reading hpast hframe ((Assembly.feed_append hread _).trans hfeed)
  | @settle _ _ _ _ _ bs _ result hfeed =>
      cases h with
      | reading hpast hframe hread =>
          have hdone := (Assembly.feed_append hread bs).trans hfeed
          cases result with
          | error e =>
              exact tidy_settled hpast hframe (.inr ⟨e, rfl, Assembly.isFatal_of_feed hdone⟩)
          | ok payload =>
              -- what opens the client again is one whole frame, with nothing read of the next
              obtain ⟨hwhole, hfits⟩ := Assembly.eq_ofPayload_of_feed hlimit.bounds.2 hdone
              rw [List.append_nil] at hwhole
              have hpayload := hanswer _ bs payload rfl rfl hwhole
                (Nat.le_trans hfits.2 hlimit.bounds.2)
              rw [hwhole]
              exact tidy_exchanged hpast hframe hpayload
  | hungUp =>
      cases h with
      | reading hpast hframe => exact tidy_settled hpast hframe (Assembly.atEnd_eq _)
  | readFails =>
      cases h with
      | reading hpast hframe => exact tidy_settled hpast hframe (.inr ⟨_, rfl, rfl⟩)
  | writeFails =>
      cases h with
      | writing hpast hframe =>
          exact tidy_over hpast hframe fun _ h => ⟨_, (Option.some.inj h).symm, rfl⟩
  | expire hms =>
      cases h with
      | writing hpast hframe =>
          exact tidy_over hpast hframe fun _ h => ⟨_, (Option.some.inj h).symm, rfl⟩
      | reading hpast hframe =>
          exact tidy_over hpast hframe fun _ h => ⟨_, (Option.some.inj h).symm, rfl⟩
  | drop =>
      cases h with
      | writing hpast hframe => exact tidy_over hpast hframe fun _ h => by cases h
      | reading hpast hframe => exact tidy_over hpast hframe fun _ h => by cases h

/-! ### What a tidy history tells

The calls that left the client open come first, so the results alone tell where the history breaks
off. -/

/-- The calls that left the client open come before all others. -/
theorem Tidy.split {x : Caller} (h : Tidy answers codec x) :
    ∃ kept others, x.past = kept ++ others ∧ (∀ p ∈ kept, p.Kept answers codec) ∧
      ∀ p ∈ others, p.Broken codec ∨ p.Rejected := by
  cases h with
  | idle hpast => exact ⟨_, [], (List.append_nil _).symm, hpast, by simp⟩
  | writing hpast => exact ⟨_, [], (List.append_nil _).symm, hpast, by simp⟩
  | reading hpast => exact ⟨_, [], (List.append_nil _).symm, hpast, by simp⟩
  | closed hbefore hlast hafter =>
      exact ⟨_, _, rfl, hbefore, List.forall_mem_cons.2 ⟨.inl hlast, fun p hp =>
        .inr (hafter p hp)⟩⟩

/-- A call with an answer left the client open, and so did all before it. -/
theorem Tidy.kept_of_ok {x : Caller} (h : Tidy answers codec x) {earlier later : List PastCall}
    {p : PastCall} {r : Response} (hpast : x.past = earlier ++ p :: later)
    (hok : p.result = some (.ok r)) :
    p.Kept answers codec ∧ ∀ q ∈ earlier, q.Kept answers codec := by
  obtain ⟨kept, others, hsplit, hkept, hothers⟩ := h.split
  have hp : p ∉ others := by
    intro hp
    rcases hothers p hp with hbroken | hrejected
    · cases hbroken with
      | mk _ hresult =>
          obtain ⟨e, he, -⟩ := hresult _ hok
          cases he
    · cases hrejected
      cases hok
  rcases List.append_eq_append_iff.1 (hpast.symm.trans hsplit) with ⟨mid, rfl, hmid⟩ |
    ⟨mid, rfl, hmid⟩
  · cases mid with
    | nil =>
        rw [List.nil_append] at hmid
        exact absurd (hmid ▸ List.mem_cons_self) hp
    | cons q mid =>
        obtain ⟨rfl, -⟩ := List.cons.inj hmid
        exact ⟨hkept p (by simp), fun q hq => hkept q (List.mem_append_left _ hq)⟩
  · exact absurd (hmid ▸ List.mem_append_right _ List.mem_cons_self) hp

/-- The calls that failed and left the client open are those with a harmless error. -/
def Cautious (codec : Codec) (x : Caller) : Prop :=
  ∀ p ∈ x.past, ∀ e, p.result = some (.error e) → (p.leftOpen = true ↔ p.Harmless codec e)

/-- With a tidy history, whether a failed call left the client open can be told by its error. -/
theorem Tidy.cautious {x : Caller} (h : Tidy answers codec x) : x.Cautious codec := by
  intro p hp e herror
  obtain ⟨kept, others, hsplit, hkept, hothers⟩ := h.split
  rw [hsplit] at hp
  rcases List.mem_append.1 hp with hp | hp
  · obtain ⟨hopen, hharmless⟩ := (hkept p hp).harmless herror
    exact ⟨fun _ => hharmless, fun _ => hopen⟩
  · have hclosed : p.leftOpen = false ∧ ¬ p.Harmless codec e := by
      rcases hothers p hp with hbroken | hrejected
      · exact hbroken.not_harmless herror
      · exact hrejected.not_harmless herror
    rw [hclosed.1]
    exact iff_of_false (by decide) hclosed.2

/-- A client keeps its history in order even if anything at all comes in. -/
theorem Run.tidy (hlimit : Frame.IsLimit codec.limit) {x y : Caller} {ks : List Passage}
    (hrun : Run x ks y) (h : Tidy (fun _ _ => True) codec x) : Tidy (fun _ _ => True) codec y := by
  induction hrun with
  | refl => exact h
  | step hstep _ ih => exact ih (hstep.tidy hlimit h fun _ _ _ _ _ _ _ => trivial)

/-- Every frame can be read for every request, and opens the client again. -/
theorem exists_run_of_payload (hlimit : Frame.IsLimit codec.limit) (timeout : Option Nat)
    (past : List PastCall) (source : String) (hsource : Frame.Fits codec.limit (encodeUtf8 source))
    {payload : Bytes} (hpayload : Frame.Fits codec.limit payload) :
    ∃ ks, Run ⟨⟨codec, timeout, false⟩, none, past⟩ ks ⟨⟨codec, timeout, false⟩, none,
      past ++ [⟨source, some ((codec.decodeResponse payload).mapError .frame),
        Frame.ofPayload (encodeUtf8 source), Frame.ofPayload payload, true⟩]⟩ := by
  have hstart := Client.start_of_fits (c := ⟨codec, timeout, false⟩) rfl hlimit.bounds.2 hsource
  have hread := Assembly.feed_frame hlimit.bounds.2 hpayload []
  rw [List.append_nil] at hread
  have hsettle := @Step.settle ⟨codec, timeout, true⟩ past source
    (Frame.ofPayload (encodeUtf8 source)) [] _ _ _ hread
  rw [Except.map, settled, Client.settle_payload, Client.interpret_payload] at hsettle
  have hwritten := (Run.step (@Step.request _ _ past _ _ hstart) .refl).snoc
    (.write (List.append_nil _).symm)
  exact ⟨_, (hwritten.snoc .await).snoc hsettle⟩

/-! ## What a step takes

A client reads only while it waits for an answer, and a closed one does nothing. -/

/-- Only a client that waits for an answer takes bytes. -/
theorem Step.reading_of_takes {x y : Caller} {bs : Bytes} (h : Step x (.takes bs) y) :
    ∃ c source a w r past, x = ⟨c, some ⟨source, .reading a, w, r⟩, past⟩ := by
  cases h with
  | read => exact ⟨_, _, _, _, _, _, rfl⟩
  | settle => exact ⟨_, _, _, _, _, _, rfl⟩

/-- A closed client only rejects calls. -/
theorem Step.of_closed {x y : Caller} {k : Passage} (h : Step x k y)
    (hclosed : x.client.closed = true) (hcall : x.call = none) :
    k = .nothing ∧ y.client = x.client ∧ y.call = none ∧ ∃ p :
      PastCall, p.Rejected ∧ y.past = x.past ++ [p] := by
  cases h with
  | @refuse _ _ _ source _ hstart =>
      obtain ⟨rfl, ⟨-, rfl⟩ | ⟨hopen, -⟩⟩ := Client.start_over hstart
      · refine ⟨rfl, rfl, rfl, ⟨source, some (.error .closed), [], [], false⟩, .mk, ?_⟩
        rw [finished, hclosed]
        rfl
      · cases hclosed.symm.trans hopen
  | request hstart => cases hclosed.symm.trans (Client.start_request hstart).1
  | write => cases hcall
  | await => cases hcall
  | read => cases hcall
  | settle => cases hcall
  | hungUp => cases hcall
  | readFails => cases hcall
  | writeFails => cases hcall
  | expire => cases hcall
  | drop => cases hcall

end Caller

end SharpTokens
