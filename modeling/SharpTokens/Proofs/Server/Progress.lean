import SharpTokens.Proofs.Server.Answers

/-!
# What a server has sent so far

At any moment a server has sent a first part of the answers to the requests that reached it, and
nothing else (`Server.Answering`). So bytes from it tell which requests it has got: a frame behind
the answers to all requests but the last can only be the answer to the last
(`Server.Answering.last_answer`), and with the answers to all of them there is nothing left on the
way (`Server.Answering.all_answered`).

The invariant says what the bytes sent are, given the bytes received, whether the server goes on or
has ended. It is kept by every feed of bytes. What follows is about counting frames: the answers
have no numbers, and a frame is told only by its place.
-/

namespace SharpTokens

namespace Server

variable {α : Type} {s : Server α}

/-- What a server has sent for the bytes that it got: a first part of the answers to the frames in
them, and all of these unless it ended. -/
def Answering (s : Server α) (got out : Bytes) (ended : Bool) (a : Assembly) : Prop :=
  ∃ (payloads : List Bytes) (rest : Bytes), got = payloads.flatMap Frame.ofPayload ++ rest ∧
    (∀ p ∈ payloads, Frame.Fits s.limit p) ∧ out <+: payloads.flatMap s.answerFrame ∧
    (ended = false → out = payloads.flatMap s.answerFrame ∧
      Assembly.fresh.feed s.limit rest = .more a)

/-- Nothing was received, and nothing is sent. -/
theorem answering_nil (s : Server α) : s.Answering [] [] false .fresh :=
  ⟨[], [], rfl, by simp, List.prefix_rfl, fun _ => ⟨rfl, rfl⟩⟩

/-- A server that ends has still sent a first part of the answers. -/
theorem Answering.ended {got out : Bytes} {ended : Bool} {a : Assembly}
    (h : s.Answering got out ended a) :
    s.Answering got out true a := by
  obtain ⟨payloads, rest, hgot, hfits, hout, -⟩ := h
  exact ⟨payloads, rest, hgot, hfits, hout, fun h => by cases h⟩

/-- Behind frames that were all answered, one more frame is answered too. A server that sends less
of the answer has ended. -/
theorem answering_frame {payloads : List Bytes} {frame payload : Bytes}
    (hfits : ∀ p ∈ payloads, Frame.Fits s.limit p) (hframe : frame = Frame.ofPayload payload)
    (hpayload : Frame.Fits s.limit payload) :
    s.Answering (payloads.flatMap Frame.ofPayload ++ frame)
        (payloads.flatMap s.answerFrame ++ s.answerFrame payload) false .fresh ∧
      ∀ k a, s.Answering (payloads.flatMap Frame.ofPayload ++ frame)
        (payloads.flatMap s.answerFrame ++ (s.answerFrame payload).take k) true a := by
  have hgot : payloads.flatMap Frame.ofPayload ++ frame =
      (payloads ++ [payload]).flatMap Frame.ofPayload ++ [] := by
    rw [hframe, List.flatMap_append, List.flatMap_singleton, List.append_nil]
  have hboth : ∀ p ∈ payloads ++ [payload], Frame.Fits s.limit p :=
    List.forall_mem_append.2 ⟨hfits, List.forall_mem_singleton.2 hpayload⟩
  have hanswers : (payloads ++ [payload]).flatMap s.answerFrame =
      payloads.flatMap s.answerFrame ++ s.answerFrame payload := by
    rw [List.flatMap_append, List.flatMap_singleton]
  constructor
  · exact ⟨_, [], hgot, hboth, hanswers ▸ List.prefix_rfl, fun _ => ⟨hanswers.symm, rfl⟩⟩
  · intro k a
    refine ⟨_, [], hgot, hboth, ?_, fun h => by cases h⟩
    rw [hanswers]
    exact (List.prefix_append_right_inj _).2 (List.take_prefix k _)

/-- More bytes lead to more answers, or to the end. -/
theorem Answering.feed (hlimit : Frame.IsLimit s.limit) {got out bs : Bytes} {state : Serving}
    (h : s.Answering got (out ++ state.sink.bytes) false state.assembly)
    (hall : (s.feed state bs).unread = []) :
    s.Answering (got ++ bs) (out ++ (s.feed state bs).state.sink.bytes)
      (s.feed state bs).failure.isSome
      (s.feed state bs).state.assembly := by
  induction bs generalizing state got with
  | nil => rwa [List.append_nil]
  | cons b bs ih =>
      rw [List.append_cons]
      obtain ⟨payloads, rest, rfl, hfits, -, hgoing⟩ := h
      obtain ⟨hout, hrest⟩ := hgoing rfl
      rw [List.append_assoc (List.flatMap _ _)]
      have happend := Assembly.feed_append hrest [b]
      cases hpush : state.assembly.push s.limit b with
      | more a =>
          have hmore : Assembly.fresh.feed s.limit (rest ++ [b]) = .more a :=
            happend.trans (Assembly.feed_of_push_more hpush [])
          rw [Server.feed, hpush] at hall ⊢
          exact ih ⟨payloads, rest ++ [b], rfl, hfits, hout ▸ List.prefix_rfl,
            fun _ => ⟨hout, hmore⟩⟩ hall
      | done result =>
          have hdone : Assembly.fresh.feed s.limit (rest ++ [b]) = .done result [] :=
            happend.trans (Assembly.feed_of_push_done hpush [])
          rw [Server.feed, hpush] at hall ⊢
          cases result with
          | error e =>
              cases hall
              rw [List.append_nil]
              exact ⟨payloads, rest ++ [b], rfl, hfits, hout ▸ List.prefix_rfl, fun h => by cases h⟩
          | ok payload =>
              obtain ⟨hframe, hpayload⟩ := Assembly.eq_ofPayload_of_feed hlimit.bounds.2 hdone
              rw [List.append_nil] at hframe
              obtain ⟨hwhole, hpart⟩ := answering_frame hfits hframe hpayload
              rw [← hout, List.append_assoc] at hwhole
              -- the answer is taken whole, or the server ends with a part of it
              by_cases haccepts : state.sink.Accepts (s.answerFrame payload)
              · rw [← (Sink.write_of_accepts haccepts).2] at hwhole
                simp only [reply_of_accepts hlimit haccepts] at hall ⊢
                exact ih hwhole hall
              · obtain ⟨-, k, -, hbytes⟩ := Sink.write_of_not_accepts haccepts
                have hended := hpart k .fresh
                rw [← hout, List.append_assoc, ← hbytes] at hended
                simp only [reply_of_not_accepts hlimit haccepts] at hall ⊢
                cases hall
                rw [List.append_nil]
                exact hended

theorem length_answerFrame_pos (payload : Bytes) : 0 < (s.answerFrame payload).length := by
  rw [answerFrame, Frame.length_ofPayload]
  omega

/-- If there are more bytes than answers to all requests but the last, then the last one has
arrived. No request is answered before it is there. -/
theorem Answering.caught_up (hlimit : Frame.IsLimit s.limit) {got out coming : Bytes} {ended : Bool}
    {a : Assembly} {requests : List Bytes} (h : s.Answering got out ended a)
    (hrequests : got ++ coming = requests.flatMap Frame.ofPayload)
    (hshort : ∀ p ∈ requests, p.length ≤ Frame.maxLength)
    (hmore : ∀ ps q, requests = ps ++ [q] → (ps.flatMap s.answerFrame).length < out.length) :
    out <+: requests.flatMap s.answerFrame ∧ coming = [] ∧ (ended = false → a = .fresh) := by
  obtain ⟨payloads, rest, rfl, hfits, hout, hgoing⟩ := h
  rw [List.append_assoc] at hrequests
  obtain ⟨others, rfl, hcoming⟩ := Frame.flatMap_ofPayload_append
    (fun p hp => Nat.le_trans (hfits p hp).2 hlimit.bounds.2) hshort hrequests
  rcases List.eq_nil_or_concat others with rfl | ⟨others, q, rfl⟩
  · obtain ⟨hrest, hcoming⟩ := List.append_eq_nil_iff.1 hcoming
    rw [List.append_nil]
    refine ⟨hout, hcoming, fun hended => ?_⟩
    have hfresh := (hgoing hended).2
    rw [hrest] at hfresh
    exact (Assembly.Fed.more.inj hfresh).symm
  · -- the last request is not there, and so there are too many bytes
    have hless := hmore (payloads ++ others) q (by rw [List.concat_eq_append, List.append_assoc])
    rw [List.flatMap_append, List.length_append] at hless
    have := hout.length_le
    omega

/-- **A frame behind the answers to all requests but the last is the answer to the last.** -/
theorem Answering.last_answer (hlimit : Frame.IsLimit s.limit) {got out left coming payload : Bytes}
    {ended : Bool} {a : Assembly} {ps : List Bytes} {q : Bytes} (h : s.Answering got out ended a)
    (hrequests : got ++ coming = (ps ++ [q]).flatMap Frame.ofPayload)
    (hshort : ∀ p ∈ ps ++ [q], p.length ≤ Frame.maxLength)
    (hout : out = ps.flatMap s.answerFrame ++ (Frame.ofPayload payload ++ left))
    (hpayload : payload.length ≤ Frame.maxLength) : payload = (s.sent q).render := by
  have hpart := (h.caught_up hlimit hrequests hshort ?_).1
  · rw [hout, List.flatMap_append, List.flatMap_singleton] at hpart
    obtain ⟨t, ht⟩ := (List.prefix_append_right_inj _).1 hpart
    rw [answerFrame, List.append_assoc, ← List.append_nil (Frame.ofPayload (s.sent q).render)] at ht
    have hsent := Nat.le_trans (sent_fits hlimit q).2 hlimit.bounds.2
    exact (Frame.ofPayload_append_inj hpayload hsent ht).1
  · intro ps' q' heq
    obtain ⟨rfl, -⟩ := List.append_inj' heq rfl
    rw [hout, List.length_append, List.length_append, Frame.length_ofPayload]
    omega

/-- With the answers to all requests everything has arrived. -/
theorem Answering.all_answered (hlimit : Frame.IsLimit s.limit) {got out left coming : Bytes}
    {ended : Bool} {a : Assembly} {requests : List Bytes} (h : s.Answering got out ended a)
    (hrequests : got ++ coming = requests.flatMap Frame.ofPayload)
    (hshort : ∀ p ∈ requests, p.length ≤ Frame.maxLength)
    (hout : out = requests.flatMap s.answerFrame ++ left) :
    coming = [] ∧ left = [] ∧ (ended = false → a = .fresh) := by
  obtain ⟨hpart, hcoming, hfresh⟩ := h.caught_up hlimit hrequests hshort (by
    rintro ps q rfl
    have := length_answerFrame_pos (s := s) q
    rw [hout, List.flatMap_append, List.flatMap_singleton, List.length_append, List.length_append]
    omega)
  have hlength := hpart.length_le
  rw [hout, List.length_append] at hlength
  exact ⟨hcoming, List.eq_nil_of_length_eq_zero (by omega), hfresh⟩

end Server

end SharpTokens
