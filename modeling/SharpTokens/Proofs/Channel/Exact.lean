import Mathlib.Data.List.Forall2
import SharpTokens.Channel.Codec
import SharpTokens.Proofs.Channel.Reading

/-!
# Frames are read as they are written

There is one verdict on the bytes of a stream that is closed (`Frame.verdict_iff`): nothing, a
frame, or one of the errors, and each leaves its own bytes. A reader comes to that verdict. So
frames that are written one after another are read one after another (`Source.readFrames_frames`),
and what is read as a payload had the frame of that payload (`Source.framing_exact`).

The verdict is stated without the reader: by the bytes of the length, and by how many bytes follow
it. That no bytes have two verdicts comes from `verdict_iff`, since a reader has one result.
-/

namespace SharpTokens

open Text

/-! ## What is at the front

One lemma for each way in which a closed stream can start: too few bytes for a length, a wrong
length, too few bytes for the payload. -/

namespace Frame

variable {limit : Nat}

/-- What the bytes of a closed stream are read as, and the bytes that are left. -/
inductive Verdict (limit : Nat) : Bytes → FrameResult → Bytes → Prop where
  /-- There is nothing. -/
  | nothing : Verdict limit [] (.ok none) []
  /-- There is a frame that may be sent. -/
  | frame {payload frame : Bytes} (rest : Bytes) (h : encode limit payload = .ok frame) :
      Verdict limit (frame ++ rest) (.ok (some payload)) rest
  /-- There are some bytes of a length. -/
  | cutLength {content : Bytes} (hpos : 1 ≤ content.length) (hle : content.length ≤ 3) :
      Verdict limit content (.error (.truncated 4 content.length)) []
  /-- The length is not positive. Only its bytes are taken. -/
  | invalidLength {header : Bytes} (rest : Bytes) (h : header.length = 4)
      (hle : signedLength header ≤ 0) :
      Verdict limit (header ++ rest) (.error (.invalidLength (signedLength header))) rest
  /-- The length is over the limit. Only its bytes are taken. -/
  | tooLarge {header : Bytes} {length : Nat} (rest : Bytes) (h : header.length = 4)
      (hlength : signedLength header = length) (hless : limit < length) :
      Verdict limit (header ++ rest) (.error (.tooLarge length limit)) rest
  /-- The length is right, and there are too few bytes of the payload. If it is four, only the bytes
  tell this from a length that is cut. -/
  | cutPayload {header body : Bytes} {length : Nat} (h : header.length = 4)
      (hlength : signedLength header = length) (hle : length ≤ limit)
      (hless : body.length < length) :
      Verdict limit (header ++ body) (.error (.truncated length body.length)) []

/-- Too few bytes for a length are the end of the stream if there are none, and a cut frame
otherwise. -/
theorem outcome_of_short {content : Bytes} (h : content.length < 4) :
    outcome limit .closed content = some (if content.isEmpty then .ok none
      else .error (.truncated 4 content.length)) ∧
      content.drop (needed limit content) = [] := by
  have hneeded : needed limit content = 4 := if_pos h
  rw [outcome, hneeded, if_pos h, stop, if_pos h]
  exact ⟨rfl, List.drop_of_length_le (Nat.le_of_lt h)⟩

section Header

variable {header : Bytes} (h : header.length = 4) (rest : Bytes)

include h

/-- A wrong length is an error whatever follows it, and what follows is left. -/
theorem outcome_of_error {e : FrameError} (hcheck : checkLength limit header = .error e)
    (ending : Ending) :
    outcome limit ending (header ++ rest) = some (.error e) ∧
      (header ++ rest).drop (needed limit (header ++ rest)) = rest := by
  have hlong : 4 ≤ (header ++ rest).length := by
    rw [List.length_append, h]
    exact Nat.le_add_right 4 _
  have htake : (header ++ rest).take 4 = header := List.take_left' h
  rw [outcome, needed_of_error hlong (htake.symm ▸ hcheck), if_neg (Nat.not_lt.2 hlong), front,
    htake, hcheck]
  exact ⟨rfl, List.drop_left' h⟩

/-- A payload that is cut is an error that says how long it should have been, and nothing is left.
-/
theorem outcome_of_cut {length : Nat} (hcheck : checkLength limit header = .ok length)
    (hless : rest.length < length) :
    outcome limit .closed (header ++ rest) = some (.error (.truncated length rest.length)) ∧
      (header ++ rest).drop (needed limit (header ++ rest)) = [] := by
  have hlength : (header ++ rest).length = 4 + rest.length := by rw [List.length_append, h]
  have htake : (header ++ rest).take 4 = header := List.take_left' h
  have hneeded : needed limit (header ++ rest) = 4 + length :=
    needed_of_ok (by omega) (htake.symm ▸ hcheck)
  have hstop : stop limit .closed (header ++ rest) =
      some (.error (.truncated length rest.length)) := by
    rw [stop, if_neg (by omega), htake, hcheck, hlength, Nat.add_sub_cancel_left]
    rfl
  rw [outcome, hneeded, if_pos (by omega), hstop]
  exact ⟨rfl, List.drop_of_length_le (by omega)⟩

end Header

/-- A verdict is what reading finds. -/
theorem Verdict.outcome_eq {content rest : Bytes} {result : FrameResult}
    (h : Verdict limit content result rest) :
    outcome limit .closed content = some result ∧ content.drop (needed limit content) = rest := by
  cases h with
  | nothing => exact outcome_of_short (by decide)
  | frame rest h =>
      obtain ⟨hfits, rfl⟩ := encode_eq_ok_iff.1 h
      exact outcome_frame hfits .closed rest
  | cutLength hpos hle =>
      have hne : content.isEmpty = false := by
        rw [List.isEmpty_eq_false_iff]
        exact List.ne_nil_of_length_pos hpos
      simpa [hne] using outcome_of_short (Nat.lt_succ_of_le hle)
  | invalidLength rest h hle =>
      exact outcome_of_error h rest (checkLength_eq_error_iff.2 (Or.inl ⟨hle, rfl⟩)) .closed
  | tooLarge rest h hlength hless =>
      exact outcome_of_error h rest (checkLength_eq_error_iff.2 (Or.inr ⟨_, hlength, hless, rfl⟩))
        .closed
  | cutPayload h hlength hle hless =>
      exact outcome_of_cut h _ (checkLength_eq_ok_iff.2 ⟨hlength, Nat.zero_lt_of_lt hless, hle⟩)
        hless

/-- There is a verdict on all bytes. -/
theorem exists_verdict (limit : Nat) (content : Bytes) :
    ∃ result rest, Verdict limit content result rest := by
  by_cases hshort : content.length < 4
  · cases content with
    | nil => exact ⟨_, _, .nothing⟩
    | cons b bs => exact ⟨_, _, .cutLength (Nat.le_add_left 1 _) (Nat.le_of_lt_succ hshort)⟩
  · have hlong : 4 ≤ content.length := Nat.not_lt.1 hshort
    obtain ⟨header, body, rfl, hheader⟩ : ∃ header body, content = header ++ body ∧
        header.length = 4 :=
      ⟨_, _, (List.take_append_drop 4 content).symm, List.length_take_of_le hlong⟩
    cases hcheck : checkLength limit header with
    | error e =>
        rcases checkLength_eq_error_iff.1 hcheck with ⟨hle, rfl⟩ | ⟨length, hlength, hless, rfl⟩
        · exact ⟨_, _, .invalidLength body hheader hle⟩
        · exact ⟨_, _, .tooLarge body hheader hlength hless⟩
    | ok length =>
        obtain ⟨hlength, hpos, hle⟩ := checkLength_eq_ok_iff.1 hcheck
        by_cases hless : body.length < length
        · exact ⟨_, _, .cutPayload hheader hlength hle hless⟩
        · -- the payload is there, and it has the length that its frame says
          have htake : (body.take length).length = length :=
            List.length_take_of_le (Nat.not_lt.1 hless)
          obtain ⟨hbytes, -, hmax⟩ := eq_lengthBytes hheader hcheck
          have hframe : encode limit (body.take length) = .ok (header ++ body.take length) := by
            refine encode_eq_ok_iff.2 ⟨⟨by rwa [htake], by rwa [htake]⟩, ?_⟩
            rw [ofPayload, htake, hbytes]
          have hverdict := Verdict.frame (body.drop length) hframe
          rw [List.append_assoc, List.take_append_drop] at hverdict
          exact ⟨_, _, hverdict⟩

/-- **There is one verdict, and reading finds it.** -/
theorem verdict_iff {content rest : Bytes} {result : FrameResult} :
    Verdict limit content result rest ↔
      outcome limit .closed content = some result ∧ content.drop (needed limit content) = rest := by
  constructor
  · exact Verdict.outcome_eq
  · rintro ⟨hresult, rfl⟩
    obtain ⟨result', rest', hverdict⟩ := exists_verdict limit content
    obtain ⟨hresult', rfl⟩ := hverdict.outcome_eq
    rw [hresult, Option.some_inj] at hresult'
    rwa [hresult']

/-- A payload is found in a frame only, however the stream ends. -/
theorem eq_frame_of_outcome {ending : Ending} {content payload : Bytes}
    (h : outcome limit ending content = some (.ok (some payload))) :
    Fits (min limit maxLength) payload ∧
      content = ofPayload payload ++ content.drop (needed limit content) := by
  unfold outcome at h
  by_cases hshort : content.length < needed limit content
  · rw [if_pos hshort] at h
    obtain ⟨rfl, rfl⟩ := stop_eq_ok_iff.1 ⟨_, h⟩
    cases h
  · rw [if_neg hshort] at h
    cases hfront : front limit content with
    | error e =>
        rw [hfront] at h
        cases h
    | ok found =>
        rw [hfront] at h
        cases h
        exact eq_frame_of_front (Nat.not_lt.1 hshort) hfront

end Frame

/-! ## Frame after frame

By induction on the frames: each read takes one and leaves the others. -/

namespace Source

variable {limit : Nat}

def readFrames (limit : Nat) : Nat → Source → List (Option FrameResult) × Source
  | 0, s => ([], s)
  | n + 1, s =>
    let (result, s) := s.readFrame limit
    let (results, s) := s.readFrames limit n
    (result :: results, s)

/-- **Frames are read in their order**, and what is behind them is left. -/
theorem readFrames_frames {payloads frames : List Bytes}
    (h : List.Forall₂ (fun payload frame => Frame.encode limit payload = .ok frame) payloads frames)
    {s : Source} {rest : Bytes} (hcontent : s.content = frames.flatten ++ rest) :
    ∃ left, s.readFrames limit payloads.length =
      (payloads.map fun payload => some (.ok (some payload)), left) ∧
      left.content = rest := by
  induction h generalizing s with
  | nil => exact ⟨s, rfl, hcontent⟩
  | cons hframe _ ih =>
      obtain ⟨hfits, rfl⟩ := Frame.encode_eq_ok_iff.1 hframe
      rw [List.flatten_cons, List.append_assoc] at hcontent
      obtain ⟨behind, hread, hbehind, -⟩ := (readsAs_frame hfits hcontent).readFrame
      obtain ⟨left, hreads, hleft⟩ := ih hbehind
      refine ⟨left, ?_, hleft⟩
      simp only [List.length_cons, readFrames, hread, hreads]
      rfl

/-- What is read as a payload had the frame of it. -/
theorem eq_frame_of_readFrame {s left : Source} {payload : Bytes}
    (h : s.readFrame limit = (some (.ok (some payload)), left)) :
    ∃ frame, Frame.encode limit payload = .ok frame ∧ s.content = frame ++ left.content := by
  obtain ⟨hresult, hcontent, -⟩ := s.readFrame_eq limit
  rw [h] at hresult hcontent
  obtain ⟨hfits, hframe⟩ := Frame.eq_frame_of_outcome hresult.symm
  rw [← hcontent] at hframe
  exact ⟨_, Frame.encode_eq_ok_iff.2 ⟨hfits, rfl⟩, hframe⟩

/-- A reader of a closed stream comes to the verdict on its bytes. -/
theorem readFrame_iff_verdict {s : Source} (h : s.ending = .closed) (result : FrameResult)
    (rest : Bytes) :
    (∃ left, s.readFrame limit = (some result, left) ∧ left.content = rest) ↔
      Frame.Verdict limit s.content result rest := by
  obtain ⟨hresult, hcontent, -⟩ := s.readFrame_eq limit
  rw [h] at hresult
  rw [Frame.verdict_iff, ← hresult, ← hcontent]
  constructor
  · rintro ⟨left, hread, hleft⟩
    rw [hread]
    exact ⟨rfl, hleft⟩
  · rintro ⟨hread, hleft⟩
    exact ⟨_, Prod.ext hread rfl, hleft⟩

/-! ## Requests

A request is a text in a frame. All texts but the empty one have a request, if they fit. -/

/-- **A text that fits is read as it was sent.** -/
theorem readRequest_encodeRequest (c : Codec) {text : String} (hne : text ≠ "")
    (hle : text.utf8ByteSize ≤ min c.limit Frame.maxLength) :
    ∃ frame, c.encodeRequest text = .ok frame ∧ ∀ (s : Source)
      (rest : Bytes), s.content = frame ++ rest →
      ∃ left, c.readRequest s = (some (.ok text), left) ∧ left.content = rest := by
  have hpos : 0 < text.utf8ByteSize := by
    apply Nat.pos_of_ne_zero
    intro hzero
    exact hne (String.utf8ByteSize_eq_zero_iff.1 hzero)
  rw [← length_encodeUtf8] at hpos hle
  refine ⟨_, Frame.encode_eq_ok_iff.2 ⟨⟨hpos, hle⟩, rfl⟩, ?_⟩
  intro s rest hcontent
  obtain ⟨left, hread, hleft, -⟩ := (readsAs_frame ⟨hpos, hle⟩ hcontent).readFrame
  refine ⟨left, ?_, hleft⟩
  simp only [Codec.readRequest, Codec.readWith, hread, Codec.decodeRequest, decodeUtf8?_encodeUtf8]

/-- **Framing is exact.** A payload has a frame exactly if it is within the limit and its length can
be written. Frames that are written are read in their order, up to their last byte. What is read as
a payload had its frame, and any other bytes have the one verdict that is due to them. -/
theorem framing_exact (limit : Nat) :
    (∀ payload, (∃ frame, Frame.encode limit payload = .ok frame) ↔
      1 ≤ payload.length ∧ payload.length ≤ min limit Frame.maxLength) ∧
    (∀ payloads frames, List.Forall₂ (fun payload frame => Frame.encode limit payload = .ok frame)
      payloads frames →
      ∀ (s : Source) (rest : Bytes), s.content = frames.flatten ++ rest →
        ∃ left, s.readFrames limit payloads.length =
        (payloads.map fun payload => some (.ok (some payload)), left) ∧
          left.content = rest) ∧
    (∀ (c : Codec) (text : String), c.limit = limit → text ≠ "" →
      text.utf8ByteSize ≤ min limit Frame.maxLength →
      ∃ frame, c.encodeRequest text = .ok frame ∧ ∀ (s : Source)
      (rest : Bytes), s.content = frame ++ rest →
        ∃ left, c.readRequest s = (some (.ok text), left) ∧ left.content = rest) ∧
    (∀ (s left : Source) (payload : Bytes), s.readFrame limit = (some (.ok (some payload)), left) →
      ∃ frame, Frame.encode limit payload = .ok frame ∧ s.content = frame ++ left.content) ∧
    (∀ s : Source, s.ending = .closed → (∃ result left, s.readFrame limit = (some result, left)) ∧
      ∀ (result : FrameResult) (rest : Bytes),
        (∃ left, s.readFrame limit = (some result, left) ∧ left.content = rest) ↔
          Frame.Verdict limit s.content result rest) := by
  refine ⟨?_, ?_, ?_, ?_, ?_⟩
  · intro payload
    constructor
    · rintro ⟨frame, h⟩
      exact (Frame.encode_eq_ok_iff.1 h).1
    · intro h
      exact ⟨_, Frame.encode_eq_ok_iff.2 ⟨h, rfl⟩⟩
  · intro payloads frames h s rest hcontent
    exact readFrames_frames h hcontent
  · rintro c text rfl hne hle
    exact readRequest_encodeRequest c hne hle
  · intro s left payload h
    exact eq_frame_of_readFrame h
  · intro s h
    -- every stream has a verdict, so a reader of it comes back
    refine ⟨?_, readFrame_iff_verdict h⟩
    obtain ⟨result, rest, hverdict⟩ := Frame.exists_verdict limit s.content
    obtain ⟨left, hread, -⟩ := (readFrame_iff_verdict h result rest).2 hverdict
    exact ⟨result, left, hread⟩

/-- Two frames that come in pieces are read, and the length of a third one is cut. -/
theorem framing_exact_pieces :
    (∃ left, readFrames 64 2
        ⟨[.bytes [1, 0, 0], .interrupted, .bytes [0, 65, 2, 0],
          .bytes [0, 0, 66, 67, 4]], .closed⟩ =
      ([some (.ok (some [65])), some (.ok (some [66, 67]))], left) ∧ left.content = [4]) ∧
    ∃ left, (ofBytes [4]).readFrame 64 = (some (.error (.truncated 4 1)), left) ∧
    left.content = [] := by
  obtain ⟨-, hframes, -, -, hverdict⟩ := framing_exact 64
  constructor
  · exact hframes [[65], [66, 67]] [[1, 0, 0, 0, 65], [2, 0, 0, 0, 66, 67]]
      (.cons rfl (.cons rfl .nil)) _ [4] rfl
  · exact ((hverdict (ofBytes [4]) rfl).2 _ []).2 (.cutLength (by decide) (by decide))

end Source

end SharpTokens
