import SharpTokens.Proofs.Channel.Framing

/-!
# Reading does not depend on how bytes arrive

A stream comes in pieces of any size, with reads in between that are put off. What a reader gets of
it depends only on its bytes and on how it ends: a reader that waits for each read
(`Source.readFrame_eq`) as well as one that takes bytes as they come (`Source.awaitFrame_eq`). Both
get what reading the bytes at once gives, unless a read fails before a frame has all bytes that it
needs (`Source.reading_ignores_arrival`).

There are two readers: one asks a stream for as many bytes as it needs and waits for them, and the
other takes what arrives and looks at the clock. Both come to `Frame.outcome`, a function of the
bytes and of the ending. Neither minds what is behind the bytes that a frame needs, not even a read
that fails there.
-/

namespace SharpTokens

/-! ## The bytes of a stream

Arrivals without bytes and the way in which bytes are cut into arrivals are left out. -/

def Arrival.content : Arrival → Bytes
  | .bytes bs => bs
  | _ => []

def Source.content (source : Source) : Bytes := source.arrivals.flatMap Arrival.content

namespace Source

theorem content_ofBytes (bs : Bytes) : (ofBytes bs).content = bs := List.append_nil bs

theorem content_putBack (bytes : Bytes) (rest : List Arrival) :
    (putBack bytes rest).flatMap Arrival.content = bytes ++ rest.flatMap Arrival.content := by
  rw [putBack]
  split
  · next h => rw [List.isEmpty_iff.1 h, List.nil_append]
  · rfl

/-! ## Reading a number of bytes

`filled` says what comes of a read, given only what is left of a stream. -/

/-- What is missing is taken from the front, and the rest is left. -/
theorem fill_eq (want : Nat) (got : Array UInt8) (arrivals : List Arrival) :
    (fill want got arrivals).1.toList
        = got.toList ++ (arrivals.flatMap Arrival.content).take (want - got.size) ∧
      (fill want got arrivals).2.flatMap Arrival.content
        = (arrivals.flatMap Arrival.content).drop (want - got.size) := by
  fun_induction fill want got arrivals with
  | case1 got => simp
  | case2 got rest ih => exact ih
  | case3 got ms rest ih => exact ih
  | case4 got bs rest missing hless ih =>
      have hsize : want - (got ++ bs).size = missing - bs.length := by
        rw [← Array.length_toList, Array.toList_appendList, List.length_append, Array.length_toList,
          Nat.sub_add_eq]
      rw [hsize, Array.toList_appendList, List.append_assoc] at ih
      rw [List.flatMap_cons, Arrival.content, List.take_append, List.drop_append,
        List.take_of_length_le (Nat.le_of_lt hless), List.drop_of_length_le (Nat.le_of_lt hless),
        List.nil_append]
      exact ih
  | case5 got bs rest missing henough =>
      -- the piece is long enough, so nothing behind it is touched
      have hle : missing ≤ bs.length := Nat.not_lt.1 henough
      rw [List.flatMap_cons, Arrival.content, List.take_append_of_le_length hle,
        List.drop_append_of_le_length hle, content_putBack, Array.toList_appendList]
      exact ⟨rfl, rfl⟩

/-- What becomes of reading a number of bytes where these are left. -/
def filled (ending : Ending) (want : Nat) (content : Bytes) : Filled :=
  if want ≤ content.length then .full (content.take want)
  else
    match ending with
    | .closed => .short content.length
    | .refused => .failed
    | .silent => .stuck

/-- A read of a number of bytes gives the first of them, or says what was in the way, and leaves the
others. -/
theorem readFull_eq (s : Source) (want : Nat) :
    (s.readFull want).1 = filled s.ending want s.content ∧
      (s.readFull want).2.content = s.content.drop want ∧
      (s.readFull want).2.ending = s.ending := by
  obtain ⟨hgot, hrest⟩ := fill_eq want #[] s.arrivals
  have hgot : (fill want #[] s.arrivals).1.toList = s.content.take want := hgot
  have hsize : (fill want #[] s.arrivals).1.size = min want s.content.length := by
    rw [← Array.length_toList, hgot, List.length_take]
  refine ⟨?_, hrest, rfl⟩
  unfold readFull filled
  by_cases hle : want ≤ s.content.length
  · rw [Nat.min_eq_left hle] at hsize
    simp only [hsize, hgot, Nat.le_refl, hle, if_true]
  · have hless : s.content.length < want := Nat.not_le.1 hle
    rw [Nat.min_eq_right (Nat.le_of_lt hless)] at hsize
    cases s.ending
    all_goals simp only [hsize, hle, if_false]

theorem filled_of_le {ending : Ending} {want : Nat} {content : Bytes} (h : want ≤ content.length) :
    filled ending want content = .full (content.take want) := if_pos h

/-- With too few bytes left, the ending decides. -/
theorem filled_of_lt {ending : Ending} {want : Nat} {content : Bytes} (h : content.length < want) :
    filled ending want content =
      match ending with
      | .closed => .short content.length
      | .refused => .failed
      | .silent => .stuck := if_neg (Nat.not_le.2 h)

end Source

/-! ## Reading a frame

A result that is there stays the same when more bytes follow (`Frame.outcome_append`), which is why
it does not matter how far a stream has come when it is read. -/

namespace Frame

variable {limit : Nat} {ending : Ending} {content : Bytes}

/-- How reading a frame ends for a stream with these bytes. -/
def outcome (limit : Nat) (ending : Ending) (content : Bytes) : Option FrameResult :=
  if content.length < needed limit content then stop limit ending content
  else some ((front limit content).map some)

/-- Where bytes are missing, the end of the stream decides. -/
theorem exists_stop_eq_after (h : content.length < needed limit content) :
    ∃ atEnd, atEnd ≠ .error (.io .read) ∧ ∀ ending, stop limit ending content =
      ending.after atEnd := by
  obtain ⟨a, -, hstop⟩ := Assembly.feed_of_short h
  refine ⟨a.atEnd, ?_, hstop⟩
  cases a with
  | body length got => simp [Assembly.atEnd]
  | header got =>
      rw [Assembly.atEnd]
      split
      all_goals simp

/-- What is at the front of a stream says nothing about failing reads. -/
theorem front_ne_io (limit : Nat) (content : Bytes) : front limit content ≠ .error (.io .read) := by
  unfold front
  intro h
  cases hcheck : checkLength limit (content.take 4) with
  | ok length =>
      rw [hcheck] at h
      cases h
  | error e =>
      rw [hcheck] at h
      cases h
      rcases checkLength_eq_error_iff.1 hcheck with ⟨-, h⟩ | ⟨length, -, -, h⟩
      all_goals cases h

/-- Reading comes to an end unless the stream falls silent. -/
theorem exists_outcome (limit : Nat) (content : Bytes) (h : ending ≠ .silent) :
    ∃ result, outcome limit ending content = some result := by
  unfold outcome
  by_cases hshort : content.length < needed limit content
  · obtain ⟨atEnd, -, hstop⟩ := exists_stop_eq_after hshort
    rw [if_pos hshort, hstop]
    cases ending with
    | closed => exact ⟨_, rfl⟩
    | refused => exact ⟨_, rfl⟩
    | silent => exact absurd rfl h
  · exact ⟨_, if_neg hshort⟩

/-- A failure to read shows only where bytes are missing. -/
theorem outcome_eq_io_iff :
    outcome limit ending content = some (.error (.io .read)) ↔
      ending = .refused ∧ content.length < needed limit content := by
  unfold outcome
  by_cases hshort : content.length < needed limit content
  · obtain ⟨atEnd, hne, hstop⟩ := exists_stop_eq_after hshort
    rw [if_pos hshort, hstop]
    cases ending with
    | closed => simpa [Ending.after] using hne
    | refused => simpa [Ending.after] using hshort
    | silent => simp [Ending.after]
  · rw [if_neg hshort]
    have hne := front_ne_io limit content
    cases hfront : front limit content with
    | ok payload => simp [hshort, Except.map]
    | error e =>
        rw [hfront] at hne
        simpa [hshort, Except.map] using hne

/-- Once all bytes of a frame are there, those behind do not matter. -/
theorem needed_append (h : needed limit content ≤ content.length) (beyond : Bytes) :
    needed limit (content ++ beyond) = needed limit content ∧
      front limit (content ++ beyond) = front limit content := by
  have hlong : 4 ≤ content.length := Nat.le_trans (four_le_needed limit content) h
  have hheader : (content ++ beyond).take 4 = content.take 4 := List.take_append_of_le_length hlong
  have hlong' : 4 ≤ (content ++ beyond).length := by
    rw [List.length_append]
    exact Nat.le_add_right_of_le hlong
  unfold front
  rw [hheader]
  cases hcheck : checkLength limit (content.take 4) with
  | error e =>
      exact ⟨by rw [needed_of_error hlong hcheck, needed_of_error hlong' (hheader ▸ hcheck)], rfl⟩
  | ok length =>
      rw [needed_of_ok hlong hcheck] at h ⊢
      refine ⟨needed_of_ok hlong' (hheader ▸ hcheck), congrArg Except.ok ?_⟩
      rw [List.drop_append_of_le_length hlong]
      refine List.take_append_of_le_length ?_
      rw [List.length_drop]
      omega

/-- A frame that has all the bytes it needs is read the same, whatever comes behind it and however
the stream ends. -/
theorem outcome_append (h : needed limit content ≤ content.length) (ending' : Ending)
    (beyond : Bytes) :
    outcome limit ending' (content ++ beyond) = outcome limit ending content := by
  obtain ⟨hneeded, hfront⟩ := needed_append h beyond
  have hshort : ¬ (content ++ beyond).length < needed limit content := by
    rw [List.length_append]
    omega
  unfold outcome
  rw [hneeded, hfront, if_neg hshort, if_neg (Nat.not_lt.2 h)]

/-- A frame at the front is read, and what is behind is left. -/
theorem outcome_frame {payload : Bytes} (h : Fits (min limit maxLength) payload) (ending : Ending)
    (rest : Bytes) :
    outcome limit ending (ofPayload payload ++ rest) = some (.ok (some payload)) ∧
      (ofPayload payload ++ rest).drop (needed limit (ofPayload payload ++ rest)) = rest := by
  obtain ⟨hfront, hneeded⟩ := front_frame h rest
  have hwhole : ¬ (ofPayload payload ++ rest).length < (ofPayload payload).length := by
    rw [List.length_append]
    exact Nat.not_lt.2 (Nat.le_add_right _ _)
  rw [outcome, hneeded, if_neg hwhole, hfront, List.drop_left]
  exact ⟨rfl, rfl⟩

end Frame

/-- What waiting without a deadline comes to, where reading has a result or never comes back. -/
def Awaited.ofResult? : Option FrameResult → Awaited
  | some result => .done result
  | none => .stuck

/-- What waiting comes to where bytes lead to this and no more come, and the bytes that are left. -/
def Assembly.Fed.awaited (ending : Ending) : Assembly.Fed → Awaited × Bytes
  | .more a => (.ofResult? (ending.after a.atEnd), [])
  | .done result rest => (.done (result.map some), rest)

namespace Source

/-- **Only the bytes of a stream matter to a reader, and how it ends.** -/
theorem readFrame_eq (limit : Nat) (s : Source) :
    (s.readFrame limit).1 = Frame.outcome limit s.ending s.content ∧
      (s.readFrame limit).2.content = s.content.drop (Frame.needed limit s.content) ∧
      (s.readFrame limit).2.ending = s.ending := by
  obtain ⟨hheader, hcontent, hending⟩ := s.readFull_eq 4
  unfold readFrame Frame.outcome
  -- only what was shown of the first read is used of it
  generalize s.readFull 4 = read, s.content = content,
    s.ending = ending at hheader hcontent hending ⊢
  obtain ⟨result, left⟩ := read
  simp only at hheader hcontent hending
  subst hheader hending
  by_cases hlong : 4 ≤ content.length
  · rw [filled_of_le hlong]
    unfold Frame.front
    cases hcheck : Frame.checkLength limit (content.take 4) with
    | error e =>
        simp only [hcheck, Frame.needed_of_error hlong hcheck, if_neg (Nat.not_lt.2 hlong)]
        exact ⟨rfl, hcontent, trivial⟩
    | ok length =>
        -- the same for the second read, from where the first one ended
        obtain ⟨hbody, hrest, hending⟩ := left.readFull_eq length
        rw [hcontent] at hbody
        rw [hcontent, List.drop_drop] at hrest
        simp only [hcheck, Frame.needed_of_ok hlong hcheck]
        generalize left.readFull length = read, left.ending = ending at hbody hrest hending ⊢
        obtain ⟨result, left⟩ := read
        simp only at hbody hrest hending
        subst hbody hending
        have hlength : (content.drop 4).length = content.length - 4 := List.length_drop
        by_cases hwhole : length ≤ (content.drop 4).length
        · rw [filled_of_le hwhole, if_neg (by omega)]
          exact ⟨rfl, hrest, rfl⟩
        · rw [filled_of_lt (Nat.not_le.1 hwhole), if_pos (by omega), Frame.stop, if_neg (by omega),
            hcheck, hlength]
          cases hending : left.ending
          all_goals exact ⟨rfl, hrest, hending⟩
  · have hshort : content.length < 4 := Nat.not_le.1 hlong
    have hneeded : Frame.needed limit content = 4 := if_pos hshort
    rw [filled_of_lt hshort, hneeded, if_pos hshort, Frame.stop, if_pos hshort]
    simp only [List.isEmpty_iff_length_eq_zero]
    cases hending : left.ending
    all_goals exact ⟨rfl, hcontent, hending⟩

/-! ## Waiting for a frame -/

/-- **A frame may come in any pieces**: without a deadline it is put together as from all bytes at
once. -/
theorem awaitFrom_eq (limit : Nat) (ending : Ending) (elapsed : Nat) (a : Assembly)
    (arrivals : List Arrival) :
    (awaitFrom limit none ending elapsed a arrivals).map id (List.flatMap Arrival.content) =
      (a.feed limit (arrivals.flatMap Arrival.content)).awaited ending := by
  induction arrivals generalizing elapsed a with
  | nil =>
      cases ending
      all_goals rfl
  | cons arrival arrivals ih =>
      cases arrival with
      | interrupted => exact ih elapsed a
      | delay ms =>
          rw [awaitFrom]
          exact ih (elapsed + ms) a
      | bytes bs =>
          rw [List.flatMap_cons, Arrival.content, awaitFrom]
          cases hfeed : a.feed limit bs with
          | more next =>
              rw [Assembly.feed_append hfeed]
              exact ih elapsed next
          | done result left =>
              -- what this piece has too much goes back in front of the others
              rw [Assembly.feed_append_of_done hfeed]
              exact congrArg (Prod.mk _) (content_putBack _ _)

/-- **Only the bytes of a stream matter to a reader that waits for a frame, and how it ends.** -/
theorem awaitFrame_eq (limit : Nat) (s : Source) :
    (s.awaitFrame limit none).1 = .ofResult? (Frame.outcome limit s.ending s.content) ∧
      (s.awaitFrame limit none).2.content = s.content.drop (Frame.needed limit s.content) ∧
      (s.awaitFrame limit none).2.ending = s.ending := by
  have hawait := awaitFrom_eq limit s.ending 0 .fresh s.arrivals
  rw [← content] at hawait
  suffices h : (Assembly.fresh.feed limit s.content).awaited s.ending =
      (.ofResult? (Frame.outcome limit s.ending s.content),
        s.content.drop (Frame.needed limit s.content)) by
    rw [h] at hawait
    exact ⟨congrArg Prod.fst hawait, congrArg Prod.snd hawait, rfl⟩
  unfold Frame.outcome
  by_cases hshort : s.content.length < Frame.needed limit s.content
  · obtain ⟨a, hfeed, hstop⟩ := Assembly.feed_of_short hshort
    rw [if_pos hshort, hfeed, hstop, List.drop_of_length_le (Nat.le_of_lt hshort)]
    rfl
  · rw [if_neg hshort, Assembly.feed_of_whole (Nat.not_lt.1 hshort)]
    rfl

/-! ## Both readers

`Source.ReadsAs` says at once what the two readers get, so that nothing has to be said twice from
here on. -/

/-- What both readers get from a stream, and the bytes that both leave in it. -/
structure ReadsAs (limit : Nat) (s : Source) (result : FrameResult) (rest : Bytes) : Prop where
  /-- A reader that waits for each read. -/
  readFrame : ∃ left, s.readFrame limit = (some result, left) ∧ left.content = rest ∧
    left.ending = s.ending
  /-- A reader that takes bytes as they come. -/
  awaitFrame : ∃ left, s.awaitFrame limit none = (.done result, left) ∧ left.content = rest ∧
    left.ending = s.ending

/-- A result of the bytes is a result of both readers. -/
theorem readsAs_of_outcome {limit : Nat} {s : Source} {content : Bytes} {result : FrameResult}
    (hcontent : s.content = content) (h : Frame.outcome limit s.ending content = some result) :
    s.ReadsAs limit result (content.drop (Frame.needed limit content)) := by
  subst hcontent
  constructor
  · obtain ⟨hresult, hleft⟩ := s.readFrame_eq limit
    exact ⟨_, Prod.ext (hresult.trans h) rfl, hleft⟩
  · obtain ⟨hresult, hleft⟩ := s.awaitFrame_eq limit
    exact ⟨_, Prod.ext (hresult.trans (congrArg Awaited.ofResult? h)) rfl, hleft⟩

/-- **A frame at the front of a stream is read**, and what is behind is left. -/
theorem readsAs_frame {limit : Nat} {s : Source} {payload rest : Bytes}
    (hfits : Frame.Fits (min limit Frame.maxLength) payload)
    (h : s.content = Frame.ofPayload payload ++ rest) :
    s.ReadsAs limit (.ok (some payload)) rest := by
  obtain ⟨hresult, hrest⟩ := Frame.outcome_frame hfits s.ending rest
  have hreads := readsAs_of_outcome h hresult
  rwa [hrest] at hreads

/-- **Reading a frame does not depend on how its bytes arrive.** Streams with the same bytes and the
same end give both readers the same result, which is a failure to read exactly if bytes that the
frame needs are kept back. Any other result is that of reading at once all bytes, with those that a
failure keeps back. -/
theorem reading_ignores_arrival (limit : Nat) (content : Bytes) (ending : Ending)
    (h : ending ≠ .silent) :
    ∃ result,
      (∀ s : Source, s.content = content → s.ending = ending →
        s.ReadsAs limit result (content.drop (Frame.needed limit content))) ∧
      (result = .error (.io .read) ↔ ending = .refused ∧
        content.length < Frame.needed limit content) ∧
      (result ≠ .error (.io .read) → ∀ beyond, (ending = .closed → beyond = []) →
        (ofBytes (content ++ beyond)).ReadsAs limit result
          (content.drop (Frame.needed limit content) ++ beyond)) := by
  obtain ⟨result, hresult⟩ := Frame.exists_outcome limit content h
  have hio : result = .error (.io .read) ↔ ending = .refused ∧
      content.length < Frame.needed limit content := by
    rw [← Frame.outcome_eq_io_iff, hresult, Option.some_inj]
  refine ⟨result, ?_, hio, ?_⟩
  · rintro s hcontent rfl
    exact readsAs_of_outcome hcontent hresult
  · intro hne beyond hbeyond
    by_cases hshort : content.length < Frame.needed limit content
    · -- the stream was read to its end, so nothing is kept back
      have hclosed : ending = .closed := by
        cases ending with
        | closed => rfl
        | refused => exact absurd (hio.2 ⟨rfl, hshort⟩) hne
        | silent => exact absurd rfl h
      subst hclosed
      rw [hbeyond rfl, List.append_nil, List.append_nil]
      exact readsAs_of_outcome (content_ofBytes content) hresult
    · have henough : Frame.needed limit content ≤ content.length := Nat.not_lt.1 hshort
      rw [← List.drop_append_of_le_length henough, ← (Frame.needed_append henough beyond).1]
      exact readsAs_of_outcome (content_ofBytes _)
        ((Frame.outcome_append henough _ beyond).trans hresult)

/-- A failure inside a payload shows, in whatever pieces the bytes before it come. -/
theorem reading_ignores_arrival_cut : Ending.refused ≠ .silent ∧
    (⟨[.bytes [2, 0], .interrupted, .bytes [0, 0, 65], .delay 3], .refused⟩ : Source).ReadsAs 64
      (.error (.io .read)) [] := by
  refine ⟨by decide, ?_⟩
  obtain ⟨result, hreads, hio, -⟩ := reading_ignores_arrival 64 [2, 0, 0, 0, 65]
    .refused (by decide)
  have hresult : result = .error (.io .read) := hio.2 ⟨rfl, by decide⟩
  rw [← hresult]
  exact hreads _ rfl rfl

end Source

end SharpTokens
