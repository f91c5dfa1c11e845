import SharpTokens.Channel.Assembly

/-!
# Streams fall into frames

Every stream of bytes is a number of whole frames and then something that does not start with one
(`Frame.exists_split`). What is at the front of a stream is a frame exactly if its length is right
and there are as many bytes as it needs (`Frame.front_frame`, `Frame.eq_frame_of_front`). A frame
that is put together byte by byte is there with its last byte and not before
(`Assembly.feed_of_short`, `Assembly.feed_of_whole`), and bytes may come in any pieces
(`Assembly.feed_append`).

The length of a frame is a signed word of four bytes, so a limit above `Frame.maxLength` allows no
more than that. A length that is not positive or that is past the limit is an error, and so is the
end of a stream inside a frame. These are the only two ways in which bytes fail to start with a
frame, and both are told from the bytes alone (`Frame.needed`, `Frame.front`). All that is said of
readers and writers further on goes back to these two functions.
-/

namespace SharpTokens

namespace Frame

/-! ## Lengths

What is checked of a length is a matter of its four bytes. Checking one that was written gives it
back, and each error names the length that was read. -/

/-- A payload that a frame may have. -/
def Fits (limit : Nat) (payload : Bytes) : Prop := 0 < payload.length ∧ payload.length ≤ limit

instance (limit : Nat) (payload : Bytes) : Decidable (Fits limit payload) :=
  inferInstanceAs (Decidable (_ ∧ _))

def ofPayload (payload : Bytes) : Bytes := lengthBytes payload.length ++ payload

theorem length_lengthBytes (n : Nat) : (lengthBytes n).length = 4 := rfl

/-- A length is read back from its bytes as long as it is one that a frame can have. -/
theorem unsignedLength_lengthBytes {n : Nat} (h : n ≤ maxLength) :
    unsignedLength (lengthBytes n) = n := by
  have h : n ≤ 0x7FFFFFFF := h
  simp only [unsignedLength, lengthBytes, List.foldr_cons, List.foldr_nil, Nat.toUInt8_eq,
    UInt8.toNat_ofNat']
  omega

/-- A length passes if it is positive and within the limit, as a signed number. -/
theorem checkLength_eq_ok_iff {limit length : Nat} {header : Bytes} :
    checkLength limit header = .ok length ↔ signedLength header = length ∧ 0 < length ∧
      length ≤ limit := by
  unfold checkLength
  simp only
  split
  · constructor
    · intro h
      cases h
    · rintro ⟨hlength, hpos, -⟩
      omega
  · split
    · constructor
      · intro h
        cases h
      · rintro ⟨hlength, -, hle⟩
        omega
    · rw [Except.ok.injEq]
      omega

/-- The two ways in which a length can be wrong, and what is said of it then. -/
theorem checkLength_eq_error_iff {limit : Nat} {header : Bytes} {e : FrameError} :
    checkLength limit header = .error e ↔
      (signedLength header ≤ 0 ∧ e = .invalidLength (signedLength header)) ∨
      ∃ length : Nat, signedLength header = length ∧ limit < length ∧
      e = .tooLarge length limit := by
  unfold checkLength
  simp only
  split
  · next hle =>
    constructor
    · intro h
      cases h
      exact Or.inl ⟨hle, rfl⟩
    · -- a length that is not positive is no natural number past the limit
      rintro (⟨-, rfl⟩ | ⟨length, hlength, hless, rfl⟩)
      · rfl
      · omega
  · next hpos =>
    split
    · next hless =>
      constructor
      · intro h
        cases h
        exact Or.inr ⟨_, by omega, hless, rfl⟩
      · rintro (⟨hle, rfl⟩ | ⟨length, hlength, -, rfl⟩)
        · exact absurd hle hpos
        · rw [hlength, Int.toNat_natCast]
    · next hle =>
      constructor
      · intro h
        cases h
      · rintro (⟨hle, rfl⟩ | ⟨length, hlength, hless, rfl⟩)
        · exact absurd hle hpos
        · omega

/-- The length of a payload that fits is never refused. -/
theorem checkLength_lengthBytes {limit n : Nat} (hmax : n ≤ maxLength) (hpos : 0 < n)
    (hn : n ≤ limit) :
    checkLength limit (lengthBytes n) = .ok n := by
  refine checkLength_eq_ok_iff.2 ⟨?_, hpos, hn⟩
  rw [signedLength, unsignedLength_lengthBytes hmax]
  exact if_pos hmax

/-- Four bytes are those of the number that they are. -/
theorem lengthBytes_unsignedLength {header : Bytes} (h : header.length = 4) :
    lengthBytes (unsignedLength header) = header := by
  match header, h with
  | [a, b, c, d], _ =>
    have hd := d.toNat_lt
    simp only [unsignedLength, lengthBytes, List.foldr_cons, List.foldr_nil,
      List.cons.injEq, and_true, ← UInt8.toNat_inj, Nat.toUInt8_eq, UInt8.toNat_ofNat']
    refine ⟨?_, ?_, ?_, ?_⟩
    all_goals
      have ha := a.toNat_lt
      have hb := b.toNat_lt
      have hc := c.toNat_lt
      omega

/-- A header that is accepted is that of its length. -/
theorem eq_lengthBytes {header : Bytes} {limit n : Nat} (hlength : header.length = 4)
    (h : checkLength limit header = .ok n) :
    header = lengthBytes n ∧ 0 < n ∧ n ≤ min limit maxLength := by
  have hheader := lengthBytes_unsignedLength hlength
  have hlt : unsignedLength header < 0x100000000 := by
    match header, hlength with
    | [a, b, c, d], _ =>
      have ha := a.toNat_lt
      have hb := b.toNat_lt
      have hc := c.toNat_lt
      have hd := d.toNat_lt
      simp only [unsignedLength, List.foldr_cons, List.foldr_nil]
      omega
  obtain ⟨hsigned, hpos, hle⟩ := checkLength_eq_ok_iff.1 h
  -- with the sign bit set the length would be negative
  have hsmall : unsignedLength header ≤ maxLength := by
    apply Nat.le_of_not_lt
    intro hlarge
    rw [signedLength, if_neg (Nat.not_le.2 hlarge)] at hsigned
    omega
  have hn : unsignedLength header = n := by
    rw [signedLength, if_pos hsmall] at hsigned
    omega
  subst hn
  exact ⟨hheader.symm, hpos, Nat.le_min.2 ⟨hle, hsmall⟩⟩

/-- After a wrong length nobody knows where the next frame starts. -/
theorem isFatal_of_checkLength {limit : Nat} {header : Bytes} {e : FrameError}
    (h : checkLength limit header = .error e) : e.isFatal = true := by
  rcases checkLength_eq_error_iff.1 h with ⟨-, rfl⟩ | ⟨length, -, -, rfl⟩
  all_goals rfl

/-! ## Whole frames

A payload that fits has one frame, and no frame is the start of another. So bytes are a sequence of
frames in at most one way, and `Frame.Split` takes them apart. -/

/-- A payload has a frame exactly if it is within the limit and its length can be written. -/
theorem encode_eq_ok_iff {limit : Nat} {payload frame : Bytes} :
    encode limit payload = .ok frame ↔ Fits (min limit maxLength) payload ∧
      frame = ofPayload payload := by
  constructor
  · intro h
    simp only [encode] at h
    split at h
    · cases h
    · split at h
      · cases h
      · split at h
        · cases h
        · cases h
          exact ⟨⟨by omega, by omega⟩, rfl⟩
  · rintro ⟨⟨hpos, hle⟩, rfl⟩
    rw [encode, if_neg (by omega), if_neg (by omega), if_neg (by omega)]
    rfl

/-- A payload that fits has a frame. -/
theorem encode_eq_ok {limit : Nat} {payload : Bytes} (hlimit : limit ≤ maxLength)
    (h : Fits limit payload) :
    encode limit payload = .ok (ofPayload payload) :=
  encode_eq_ok_iff.2 ⟨by rwa [Nat.min_eq_left hlimit], rfl⟩

/-- Whatever has a frame fits, and its frame is the length and the payload. -/
theorem eq_ofPayload_of_encode {limit : Nat} {payload frame : Bytes}
    (h : encode limit payload = .ok frame) :
    frame = ofPayload payload ∧ Fits limit payload := by
  obtain ⟨⟨hpos, hle⟩, hframe⟩ := encode_eq_ok_iff.1 h
  exact ⟨hframe, hpos, Nat.le_trans hle (Nat.min_le_left _ _)⟩

/-- A payload past the limit is refused by its length. -/
theorem encode_eq_tooLarge {limit : Nat} {payload : Bytes} (h : limit < payload.length) :
    encode limit payload = .error (.tooLarge payload.length limit) := by
  rw [encode, if_neg (by omega), if_pos h]

theorem length_ofPayload (payload : Bytes) : (ofPayload payload).length = payload.length + 4 := by
  rw [ofPayload, List.length_append, length_lengthBytes, Nat.add_comm]

/-- A frame shows what is in it and where it ends. -/
theorem ofPayload_append_inj {p q xs ys : Bytes} (hp : p.length ≤ maxLength)
    (hq : q.length ≤ maxLength) (h : ofPayload p ++ xs = ofPayload q ++ ys) : p = q ∧ xs = ys := by
  rw [ofPayload, ofPayload, List.append_assoc, List.append_assoc] at h
  obtain ⟨hheader, hbody⟩ := List.append_inj h rfl
  have hlength : p.length = q.length := by
    rw [← unsignedLength_lengthBytes hp, hheader, unsignedLength_lengthBytes hq]
  exact List.append_inj hbody hlength

/-- Frames are told apart in only one way. -/
theorem flatMap_ofPayload_append {ps qs : List Bytes} (hp : ∀ p ∈ ps, p.length ≤ maxLength)
    (hq : ∀ q ∈ qs, q.length ≤ maxLength) {rest : Bytes}
    (h : ps.flatMap ofPayload ++ rest = qs.flatMap ofPayload) :
    ∃ others, qs = ps ++ others ∧ rest = others.flatMap ofPayload := by
  induction ps generalizing qs with
  | nil => exact ⟨qs, rfl, h⟩
  | cons p ps ih =>
      cases qs with
      | nil =>
          -- a frame has bytes, but on the right there are none
          have hlength := congrArg List.length h
          rw [List.flatMap_cons, List.length_append, List.length_append,
            length_ofPayload] at hlength
          simp at hlength
      | cons q qs =>
          rw [List.flatMap_cons, List.flatMap_cons, List.append_assoc] at h
          obtain ⟨rfl, hothers⟩ := ofPayload_append_inj (hp p List.mem_cons_self)
            (hq q List.mem_cons_self) h
          obtain ⟨others, rfl, hrest⟩ := ih (fun p h => hp p (List.mem_cons_of_mem _ h))
            (fun q h => hq q (List.mem_cons_of_mem _ h)) hothers
          exact ⟨others, rfl, hrest⟩

/-- Where bytes do not start with a whole frame. -/
def Unframed (limit : Nat) (tail : Bytes) : Prop :=
  ∀ payload rest, Fits limit payload → tail ≠ ofPayload payload ++ rest

/-- A frame has at least the bytes of its length. -/
theorem unframed_of_short {limit : Nat} {tail : Bytes} (h : tail.length < 4) :
    Unframed limit tail := by
  rintro payload rest - rfl
  rw [List.length_append, length_ofPayload] at h
  omega

/-- How bytes fall into whole frames and a rest. -/
structure Split (limit : Nat) (content : Bytes) (payloads : List Bytes) (tail : Bytes) : Prop where
  content_eq : content = payloads.flatMap ofPayload ++ tail
  fits : ∀ p ∈ payloads, Fits limit p
  unframed : Unframed limit tail

/-- **A stream is whole frames and a rest.** -/
theorem exists_split (limit : Nat) (content : Bytes) :
    ∃ payloads tail, Split limit content payloads tail := by
  -- what is behind a frame is shorter, since a frame has a header at least
  induction hn : content.length using Nat.strongRecOn generalizing content with
  | ind n ih =>
      by_cases h : Unframed limit content
      · exact ⟨[], content, rfl, by simp, h⟩
      · simp only [Unframed, Classical.not_forall, Classical.not_not] at h
        obtain ⟨payload, rest, hfits, rfl⟩ := h
        have hless : rest.length < n := by
          rw [List.length_append, length_ofPayload] at hn
          omega
        obtain ⟨payloads, tail, rfl, hall, htail⟩ := ih rest.length hless rest rfl
        refine ⟨payload :: payloads, tail, ?_, List.forall_mem_cons.2 ⟨hfits, hall⟩, htail⟩
        rw [List.flatMap_cons, List.append_assoc]

/-! ## The front of a stream

How many bytes the first frame takes can be told once its length is there. With that many bytes,
what is at the front is a frame or a wrong length. -/

/-- The bytes that the frame at the front of others takes: those of its length while that is not
there or if it is wrong, and those of its payload too otherwise. -/
def needed (limit : Nat) (content : Bytes) : Nat :=
  if content.length < 4 then 4
  else
    match checkLength limit (content.take 4) with
    | .ok length => 4 + length
    | .error _ => 4

/-- The payload of the frame at the front of bytes that are enough for it, unless its length is
wrong. -/
def front (limit : Nat) (content : Bytes) : Except FrameError Bytes :=
  (checkLength limit (content.take 4)).map fun length => (content.drop 4).take length

theorem four_le_needed (limit : Nat) (content : Bytes) : 4 ≤ needed limit content := by
  unfold needed
  split
  · exact Nat.le_refl 4
  · split
    · exact Nat.le_add_right 4 _
    · exact Nat.le_refl 4

/-- After a length that is right, the payload is needed as well. -/
theorem needed_of_ok {limit length : Nat} {content : Bytes} (hlong : 4 ≤ content.length)
    (h : checkLength limit (content.take 4) = .ok length) : needed limit content = 4 + length := by
  unfold needed
  rw [if_neg (Nat.not_lt.2 hlong), h]

/-- After a length that is wrong, nothing more is needed. -/
theorem needed_of_error {limit : Nat} {content : Bytes} {e : FrameError}
    (hlong : 4 ≤ content.length) (h : checkLength limit (content.take 4) = .error e) :
    needed limit content = 4 := by
  unfold needed
  rw [if_neg (Nat.not_lt.2 hlong), h]

/-- What is at the front of bytes that are enough for it is a frame. -/
theorem eq_frame_of_front {limit : Nat} {content payload : Bytes}
    (hlong : needed limit content ≤ content.length) (h : front limit content = .ok payload) :
    Fits (min limit maxLength) payload ∧
      content = ofPayload payload ++ content.drop (needed limit content) := by
  have hfour : 4 ≤ content.length := Nat.le_trans (four_le_needed limit content) hlong
  unfold front at h
  cases hcheck : checkLength limit (content.take 4) with
  | error e =>
      rw [hcheck] at h
      cases h
  | ok length =>
      rw [hcheck] at h
      cases h
      rw [needed_of_ok hfour hcheck] at hlong ⊢
      have hheader : (content.take 4).length = 4 := List.length_take_of_le hfour
      obtain ⟨htake, hpos, hle⟩ := eq_lengthBytes hheader hcheck
      have hpayload : ((content.drop 4).take length).length = length := by
        rw [List.length_take, List.length_drop]
        omega
      refine ⟨⟨by rwa [hpayload], by rwa [hpayload]⟩, ?_⟩
      rw [ofPayload, hpayload, ← htake, List.append_assoc, ← List.drop_drop, List.take_append_drop,
        List.take_append_drop]

/-- A frame is at its own front, and takes its own bytes. -/
theorem front_frame {limit : Nat} {payload : Bytes} (h : Fits (min limit maxLength) payload)
    (rest : Bytes) :
    front limit (ofPayload payload ++ rest) = .ok payload ∧
      needed limit (ofPayload payload ++ rest) = (ofPayload payload).length := by
  obtain ⟨hpos, hle⟩ := h
  have hcheck : checkLength limit ((ofPayload payload ++ rest).take 4) = .ok payload.length :=
    checkLength_lengthBytes (Nat.le_trans hle (Nat.min_le_right _ _)) hpos
      (Nat.le_trans hle (Nat.min_le_left _ _))
  have hlong : 4 ≤ (ofPayload payload ++ rest).length := by
    rw [List.length_append, length_ofPayload]
    omega
  constructor
  · unfold front
    rw [hcheck]
    show Except.ok ((payload ++ rest).take payload.length) = _
    rw [List.take_left]
  · rw [needed_of_ok hlong hcheck, length_ofPayload, Nat.add_comm]

end Frame

namespace Assembly

/-! ## Bytes in pieces

A reader that is fed gets its bytes in pieces. `Assembly.feed_append` joins two pieces, and with it
all that is said of a whole frame is said of its parts. -/

variable {limit : Nat}

/-- Two pieces of a frame that is not complete after the first do what they do at once. -/
theorem feed_append {a next : Assembly} {xs : Bytes} (h : a.feed limit xs = .more next)
    (ys : Bytes) :
    a.feed limit (xs ++ ys) = next.feed limit ys := by
  induction xs generalizing a with
  | nil =>
      cases h
      rfl
  | cons x xs ih =>
      rw [feed] at h
      rw [List.cons_append, feed]
      cases hpush : a.push limit x with
      | more a =>
          rw [hpush] at h
          exact ih h
      | done result =>
          rw [hpush] at h
          cases h

/-- The end of a frame does not depend on what is behind. -/
theorem feed_append_of_done {a : Assembly} {xs rest : Bytes} {result : Except FrameError Bytes}
    (h : a.feed limit xs = .done result rest) (ys : Bytes) :
    a.feed limit (xs ++ ys) = .done result (rest ++ ys) := by
  induction xs generalizing a with
  | nil => cases h
  | cons x xs ih =>
      rw [feed] at h
      rw [List.cons_append, feed]
      cases hpush : a.push limit x with
      | more a =>
          rw [hpush] at h
          exact ih h
      | done result =>
          rw [hpush] at h
          cases h
          rfl

/-- A frame that is complete took some of the bytes, and the others do not matter to it. -/
theorem exists_of_feed_done {a : Assembly} {bs rest : Bytes} {result : Except FrameError Bytes}
    (h : a.feed limit bs = .done result rest) :
    ∃ got, bs = got ++ rest ∧ a.feed limit got = .done result [] := by
  induction bs generalizing a with
  | nil => cases h
  | cons b bs ih =>
      rw [feed] at h
      split at h
      · next hpush =>
        obtain ⟨got, rfl, hgot⟩ := ih h
        exact ⟨b :: got, rfl, by rw [feed, hpush]; exact hgot⟩
      · next hpush =>
        cases h
        exact ⟨[b], rfl, by rw [feed, hpush]⟩

/-- Bytes that complete nothing are kept. -/
theorem feed_growing (limit : Nat) (f : Array UInt8 → Assembly) (n : Nat)
    (hf : ∀ got b, (got.push b).size < n → (f got).push limit b = .more (f (got.push b)))
    (got : Array UInt8) (bs : Bytes) (h : got.size + bs.length < n) :
    (f got).feed limit bs = .more (f (got ++ bs)) := by
  induction bs generalizing got with
  | nil => simp [feed]
  | cons b bs ih =>
      rw [List.length_cons] at h
      rw [feed, hf got b (by rw [Array.size_push]; omega)]
      simp only
      rw [ih (got.push b) (by rw [Array.size_push]; omega)]
      simp

/-! ### Lengths and payloads

First four bytes of a length, and then as many of a payload as it says. Until there are enough of
either, what there is only grows. -/

/-- Fewer than four bytes are kept as they are. -/
theorem feed_header {bs : Bytes} (h : bs.length < 4) :
    fresh.feed limit bs = .more (.header bs.toArray) := by
  have hgrowing := feed_growing limit .header 4 (fun _ _ h => if_pos h) #[] bs (by simpa using h)
  simpa [fresh] using hgrowing

theorem feed_of_push_more {a next : Assembly} {b : UInt8} (h : a.push limit b = .more next)
    (rest : Bytes) :
    a.feed limit (b :: rest) = next.feed limit rest := by
  rw [feed, h]

theorem feed_of_push_done {a : Assembly} {b : UInt8} {result : Except FrameError Bytes}
    (h : a.push limit b = .done result) (rest : Bytes) :
    a.feed limit (b :: rest) = .done result rest := by
  rw [feed, h]

/-- With its fourth byte a length is there, for good or ill. -/
theorem feed_wholeHeader (limit : Nat) {header : Bytes} (h : header.length = 4) (rest : Bytes) :
    (∀ n, Frame.checkLength limit header = .ok n →
      fresh.feed limit (header ++ rest) = feed limit (.body n #[]) rest) ∧
    ∀ e, Frame.checkLength limit header = .error e →
      fresh.feed limit (header ++ rest) = .done (.error e) rest := by
  match header, h with
  | [a, b, c, d], _ =>
    have hthree : fresh.feed limit ([a, b, c] ++ d :: rest) = feed limit (.header #[a, b, c])
        (d :: rest) := rfl
    constructor
    · intro n hn
      exact hthree.trans (feed_of_push_more (by simp [push, hn]) rest)
    · intro e he
      exact hthree.trans (feed_of_push_done (by simp [push, he]) rest)

/-- Fewer bytes than the payload has are kept as they are. -/
theorem feed_body {length : Nat} {bs : Bytes} (h : bs.length < length) :
    feed limit (.body length #[]) bs = .more (.body length bs.toArray) := by
  have hgrowing := feed_growing limit (.body length) length (fun _ _ h => if_pos h) #[] bs
    (by simpa using h)
  simpa using hgrowing

/-- With its last byte a payload is there. -/
theorem feed_wholeBody {payload : Bytes} (hpos : 0 < payload.length) (rest : Bytes) :
    feed limit (.body payload.length #[]) (payload ++ rest) = .done (.ok payload) rest := by
  obtain ⟨bs, b, rfl⟩ : ∃ bs b, payload = bs ++ [b] :=
    ⟨payload.dropLast, payload.getLast (List.ne_nil_of_length_pos hpos),
      (List.dropLast_concat_getLast _).symm⟩
  have hbefore : feed limit (.body (bs ++ [b]).length #[]) bs =
      .more (.body (bs ++ [b]).length bs.toArray) :=
    feed_body (by simp)
  rw [List.append_assoc, feed_append hbefore]
  exact feed_of_push_done (by simp [push]) rest

/-- **A frame is there with its last byte.** -/
theorem feed_frame {payload : Bytes} (hlimit : limit ≤ Frame.maxLength)
    (h : Frame.Fits limit payload) (rest : Bytes) :
    fresh.feed limit (Frame.ofPayload payload ++ rest) = .done (.ok payload) rest := by
  have hlength := Frame.checkLength_lengthBytes (Nat.le_trans h.2 hlimit) h.1 h.2
  rw [Frame.ofPayload, List.append_assoc,
    (feed_wholeHeader limit (Frame.length_lengthBytes _) _).1 _ hlength]
  exact feed_wholeBody h.1 rest

end Assembly

/-! ## Where reading ends

Bytes that do not start with a whole frame are the end of reading. What it is depends on how the
stream ends, unless the length is wrong already. -/

/-- What a stream leads to where its bytes are over: what there is at its end, a failure, or nothing
ever. -/
def Ending.after (ending : Ending) (atEnd : FrameResult) : Option FrameResult :=
  match ending with
  | .closed => some atEnd
  | .refused => some (.error (.io .read))
  | .silent => none

/-- How reading ends before bytes that do not start with a whole frame: there are none of a further
frame, or too few, or its length is wrong. -/
def Frame.stop (limit : Nat) (ending : Ending) (tail : Bytes) : Option FrameResult :=
  if tail.length < 4 then
    ending.after (if tail.isEmpty then .ok none else .error (.truncated 4 tail.length))
  else
    match checkLength limit (tail.take 4) with
    | .error e => some (.error e)
    | .ok length => ending.after (.error (.truncated length (tail.length - 4)))

/-- A stream ends well only where it is closed between frames. -/
theorem Frame.stop_eq_ok_iff {limit : Nat} {ending : Ending} {tail : Bytes} :
    (∃ r, stop limit ending tail = some (.ok r)) ↔ ending = .closed ∧ tail = [] := by
  constructor
  · rintro ⟨r, h⟩
    rw [stop] at h
    cases ending with
    | refused =>
        simp only [Ending.after] at h
        split at h
        · cases h
        · split at h
          all_goals cases h
    | silent =>
        simp only [Ending.after] at h
        split at h
        · cases h
        · split at h
          all_goals cases h
    -- only a stream that is closed between frames ends well
    | closed =>
        simp only [Ending.after] at h
        split at h
        · split at h
          · exact ⟨rfl, List.isEmpty_iff.1 ‹_›⟩
          · cases h
        · split at h
          all_goals cases h
  · rintro ⟨rfl, rfl⟩
    exact ⟨none, rfl⟩

namespace Assembly

variable {limit : Nat}

/-- What has come of a frame shows how reading ends if nothing more comes. -/
theorem feed_of_short {content : Bytes} (h : content.length < Frame.needed limit content) :
    ∃ a, fresh.feed limit content = .more a ∧
      ∀ ending, Frame.stop limit ending content = ending.after a.atEnd := by
  by_cases hshort : content.length < 4
  · refine ⟨_, feed_header hshort, fun ending => ?_⟩
    rw [Frame.stop, if_pos hshort, atEnd]
    simp
  · have hlong : 4 ≤ content.length := Nat.not_lt.1 hshort
    have hheader : (content.take 4).length = 4 := List.length_take_of_le hlong
    obtain ⟨hok, -⟩ := feed_wholeHeader limit hheader (content.drop 4)
    rw [List.take_append_drop] at hok
    cases hcheck : Frame.checkLength limit (content.take 4) with
    | error e =>
        rw [Frame.needed_of_error hlong hcheck] at h
        exact absurd h hshort
    | ok length =>
        rw [Frame.needed_of_ok hlong hcheck] at h
        have hbody : (content.drop 4).length < length := by
          rw [List.length_drop]
          omega
        refine ⟨_, (hok length hcheck).trans (feed_body hbody), fun ending => ?_⟩
        rw [Frame.stop, if_neg hshort, hcheck, atEnd]
        simp

/-- With all its bytes a frame is there, or its length is known to be wrong. -/
theorem feed_of_whole {content : Bytes} (h : Frame.needed limit content ≤ content.length) :
    fresh.feed limit content = .done (Frame.front limit content)
      (content.drop (Frame.needed limit content)) := by
  have hlong : 4 ≤ content.length := Nat.le_trans (Frame.four_le_needed limit content) h
  have hheader : (content.take 4).length = 4 := List.length_take_of_le hlong
  obtain ⟨hok, herror⟩ := feed_wholeHeader limit hheader (content.drop 4)
  rw [List.take_append_drop] at hok herror
  unfold Frame.front
  cases hcheck : Frame.checkLength limit (content.take 4) with
  | error e =>
      rw [Frame.needed_of_error hlong hcheck]
      exact herror e hcheck
  | ok length =>
      rw [Frame.needed_of_ok hlong hcheck] at h ⊢
      have hlength : ((content.drop 4).take length).length = length := by
        rw [List.length_take, List.length_drop]
        omega
      have hpos : 0 < ((content.drop 4).take length).length := by
        rw [hlength]
        exact (Frame.eq_lengthBytes hheader hcheck).2.1
      have hbody : feed limit _ _ = _ := feed_wholeBody hpos ((content.drop 4).drop length)
      rw [hlength, List.take_append_drop, List.drop_drop] at hbody
      exact (hok length hcheck).trans hbody

/-- Behind the last whole frame, a reader either waits for more with what it has or stops at a wrong
length. -/
theorem feed_unframed {tail : Bytes} (h : Frame.Unframed limit tail) :
    (∃ a, fresh.feed limit tail = .more a ∧
      ∀ ending, Frame.stop limit ending tail = ending.after a.atEnd) ∨
    ∃ e rest, fresh.feed limit tail = .done (.error e) rest ∧
      ∀ ending, Frame.stop limit ending tail = some (.error e) := by
  by_cases hshort : tail.length < Frame.needed limit tail
  · exact Or.inl (feed_of_short hshort)
  · have hlong : Frame.needed limit tail ≤ tail.length := Nat.not_lt.1 hshort
    have hfour : ¬ tail.length < 4 :=
      Nat.not_lt.2 (Nat.le_trans (Frame.four_le_needed limit tail) hlong)
    have hfeed := feed_of_whole hlong
    cases hfront : Frame.front limit tail with
    | ok payload =>
        obtain ⟨⟨hpos, hle⟩, htail⟩ := Frame.eq_frame_of_front hlong hfront
        exact absurd htail (h payload _ ⟨hpos, Nat.le_trans hle (Nat.min_le_left _ _)⟩)
    | error e =>
        rw [hfront] at hfeed
        refine Or.inr ⟨e, _, hfeed, fun ending => ?_⟩
        unfold Frame.front at hfront
        cases hcheck : Frame.checkLength limit (tail.take 4) with
        | ok length =>
            rw [hcheck] at hfront
            cases hfront
        | error e' =>
            rw [hcheck] at hfront
            cases hfront
            rw [Frame.stop, if_neg hfour, hcheck]

/-- What is put together is a frame. -/
theorem eq_ofPayload_of_feed (hlimit : limit ≤ Frame.maxLength) {bs payload rest : Bytes}
    (h : fresh.feed limit bs = .done (.ok payload) rest) :
    bs = Frame.ofPayload payload ++ rest ∧ Frame.Fits limit payload := by
  -- a first whole frame is the one that is put together, and without one nothing is
  obtain ⟨payloads, tail, rfl, hfits, htail⟩ := Frame.exists_split limit bs
  cases payloads with
  | nil =>
      rcases feed_unframed htail with ⟨a, hmore, -⟩ | ⟨e, left, hdone, -⟩
      · cases h.symm.trans hmore
      · cases h.symm.trans hdone
  | cons p payloads =>
      have hp := hfits p List.mem_cons_self
      rw [List.flatMap_cons, List.append_assoc] at h ⊢
      cases h.symm.trans (feed_frame hlimit hp _)
      exact ⟨rfl, hp⟩

/-- After a wrong length nothing tells where a frame starts. -/
theorem isFatal_of_feed {a : Assembly} {bs rest : Bytes} {e : FrameError}
    (h : a.feed limit bs = .done (.error e) rest) : e.isFatal = true := by
  induction bs generalizing a with
  | nil => cases h
  | cons b bs ih =>
      rw [feed] at h
      split at h
      · exact ih h
      · next hpush =>
        cases h
        cases a with
        | header got =>
            simp only [push] at hpush
            split at hpush
            · cases hpush
            · split at hpush
              · cases hpush
              · next hcheck =>
                cases hpush
                exact Frame.isFatal_of_checkLength hcheck
        | body length got =>
            simp only [push] at hpush
            split at hpush
            all_goals cases hpush

end Assembly

end SharpTokens
