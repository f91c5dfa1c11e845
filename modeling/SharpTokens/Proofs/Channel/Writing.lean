import Mathlib.Data.List.TakeDrop
import SharpTokens.Channel.Sink
import SharpTokens.Proofs.Channel.Exact

/-!
# What is written is whole frames

A sink takes bytes while it has room for them. A frame goes into it in two writes, of which either
may be cut into any parts; that makes no difference (`Sink.writesInParts_iff`). So payloads that are
written one after another leave their frames in the sink, up to the first one that it has no room
for. Of that one it keeps what it had room for and is full, and it stays as it is from then on
(`Sink.writeFrames_of_failure`). Whoever reads the sink gets the payloads that were written, and
learns if the last frame is cut (`Sink.holds_written_frames`).

The room of a sink only shrinks, and `Sink.put` says what it holds once it took some bytes. With
`Sink.Accepts`, a write is one of two things: all bytes are taken, or as many as there is room for
and the write fails. Everything about several writes follows from these two cases.
-/

namespace SharpTokens

namespace Sink

variable {sink next : Sink} {xs ys : Bytes}

/-! ## One write

A sink is its bytes and its room; `eq_of_bytes` lets sinks be compared by these. -/

def Accepts (sink : Sink) (bytes : Bytes) : Prop :=
  ∀ room, sink.room = some room → bytes.length ≤ room

def put (sink : Sink) (bytes : Bytes) : Sink :=
  ⟨sink.taken ++ bytes, sink.room.map (· - bytes.length)⟩

/-- Two sinks with the same bytes and the same room are the same. -/
theorem eq_of_bytes (hbytes : sink.bytes = next.bytes) (hroom : sink.room = next.room) :
    sink = next := by
  obtain ⟨taken, room⟩ := sink
  obtain ⟨taken', room'⟩ := next
  cases hroom
  cases Array.toList_inj.1 hbytes
  rfl

@[simp] theorem bytes_put : (sink.put xs).bytes = sink.bytes ++ xs := by simp [put, bytes]

@[simp] theorem room_put : (sink.put xs).room = sink.room.map (· - xs.length) := rfl

@[simp] theorem put_nil : sink.put [] = sink := eq_of_bytes (by simp) (by simp)

@[simp] theorem put_put : (sink.put xs).put ys = sink.put (xs ++ ys) := by
  apply eq_of_bytes
  · simp
  · cases hroom : sink.room with
    | none => simp [hroom]
    | some room => simp [hroom, Nat.sub_sub]

/-- A sink without a limit takes anything. -/
theorem accepts_of_unlimited (h : sink.room = none) : sink.Accepts xs := by
  intro room hroom
  rw [h] at hroom
  cases hroom

theorem accepts_nil : sink.Accepts [] := fun _ _ => Nat.zero_le _

/-- What there is no room for is longer than the room. -/
theorem exists_room_of_not_accepts (h : ¬ sink.Accepts xs) :
    ∃ room, sink.room = some room ∧ room < xs.length := by
  simp only [Accepts, Classical.not_forall, Nat.not_le] at h
  obtain ⟨room, hroom, hless⟩ := h
  exact ⟨room, hroom, hless⟩

/-! ### Room and no room

A write has one of two outcomes. It puts all bytes into the sink, or it puts as many as there is
room for and fails; then the sink is full. -/

/-- Bytes for which there is room are all taken. -/
theorem write_eq_put (h : sink.Accepts xs) : sink.write xs = (.ok (), sink.put xs) := by
  rw [write]
  split
  · next hroom => rw [put, hroom, Option.map_none]
  · next room hroom => rw [if_pos (h room hroom), put, hroom, Option.map_some]

/-- What there is no room for is cut, and the sink is full. -/
theorem write_eq_cut {room : Nat} (hroom : sink.room = some room) (hless : room < xs.length) :
    sink.write xs = (.error (.io .write), sink.put (xs.take room)) := by
  have hlength : (xs.take room).length = room := List.length_take_of_le (Nat.le_of_lt hless)
  rw [put, hroom, Option.map_some, hlength, Nat.sub_self, write, hroom]
  exact if_neg (Nat.not_le.2 hless)

/-- A write that succeeds adds its bytes. -/
theorem write_of_accepts (h : sink.Accepts xs) : (sink.write xs).1 = .ok () ∧
    (sink.write xs).2.bytes = sink.bytes ++ xs := by
  rw [write_eq_put h]
  exact ⟨rfl, bytes_put⟩

/-- What a sink does not accept it takes a part of. -/
theorem write_of_not_accepts (h : ¬ sink.Accepts xs) : (sink.write xs).1 = .error (.io .write) ∧
    ∃ k, k < xs.length ∧ (sink.write xs).2.bytes = sink.bytes ++ xs.take k := by
  obtain ⟨room, hroom, hless⟩ := exists_room_of_not_accepts h
  rw [write_eq_cut hroom hless]
  exact ⟨rfl, room, hless, bytes_put⟩

/-! ### Two writes in a row

They come to the same as one write of all the bytes, which is why it does not matter that a frame is
written in two parts. -/

/-- There is room for two texts if there is room for the one, and then for the other. -/
theorem accepts_append_iff : sink.Accepts (xs ++ ys) ↔ sink.Accepts xs ∧
    (sink.put xs).Accepts ys := by
  cases hroom : sink.room with
  | none => simp [Accepts, hroom]
  | some room =>
      simp only [Accepts, room_put, hroom, Option.map_some, Option.some.injEq, forall_eq',
        List.length_append]
      omega

/-- The same, of a sink that wrote the first. -/
theorem accepts_append : sink.Accepts (xs ++ ys) ↔ sink.Accepts xs ∧
    (sink.write xs).2.Accepts ys := by
  rw [accepts_append_iff]
  refine and_congr_right fun h => ?_
  rw [write_eq_put h]

/-- After bytes for which there is room, only the others can fail. -/
theorem write_append_of_accepts (h : sink.Accepts xs) :
    sink.write (xs ++ ys) = (sink.put xs).write ys := by
  by_cases hys : (sink.put xs).Accepts ys
  · rw [write_eq_put (accepts_append_iff.2 ⟨h, hys⟩), write_eq_put hys, put_put]
  · obtain ⟨rest, hrest, hless⟩ := exists_room_of_not_accepts hys
    rw [room_put, Option.map_eq_some_iff] at hrest
    obtain ⟨room, hroom, rfl⟩ := hrest
    have hxs := h room hroom
    have hlong : room < (xs ++ ys).length := by
      rw [List.length_append]
      omega
    have hleft : (sink.put xs).room = some (room - xs.length) := by
      rw [room_put, hroom, Option.map_some]
    rw [write_eq_cut hroom hlong, write_eq_cut hleft hless, put_put, List.take_append,
      List.take_of_length_le hxs]

/-- **Two writes come to the same as one**, of which the second is made if the first had room. -/
theorem write_append (sink : Sink) (xs ys : Bytes) :
    sink.write (xs ++ ys) =
      match sink.write xs with
      | (.ok _, next) => next.write ys
      | (.error e, next) => (.error e, next) := by
  by_cases h : sink.Accepts xs
  · rw [write_append_of_accepts h, write_eq_put h]
  · obtain ⟨room, hroom, hless⟩ := exists_room_of_not_accepts h
    have hlong : room < (xs ++ ys).length := by
      rw [List.length_append]
      omega
    rw [write_eq_cut hroom hlong, write_eq_cut hroom hless,
      List.take_append_of_le_length (Nat.le_of_lt hless)]

/-! ## Writes in parts

A stream may take a few bytes of a write at a time. The relations below allow every way of doing so,
and the theorems say that they all come to the same. -/

/-- How bytes may go into a sink that takes some of them at a time. It takes at least one while it
has room, and refuses what is left when it has none. -/
inductive TakesInParts : Sink → Bytes → Except FrameError Unit → Sink → Prop
  | nothing (sink : Sink) : TakesInParts sink [] (.ok ()) sink
  | part {sink next : Sink} {xs ys : Bytes} {result : Except FrameError Unit} :
      xs ≠ [] → sink.Accepts xs →
      TakesInParts (sink.put xs) ys result next → TakesInParts sink (xs ++ ys) result next
  | refused {sink : Sink} {xs : Bytes} : sink.room = some 0 → xs ≠ [] →
      TakesInParts sink xs (.error (.io .write)) sink

/-- The parts do not matter. -/
theorem takesInParts_iff {result : Except FrameError Unit} :
    TakesInParts sink xs result next ↔ sink.write xs = (result, next) := by
  constructor
  · intro h
    induction h with
    | nothing => rw [write_eq_put accepts_nil, put_nil]
    | part _ haccepts _ ih => rw [write_append_of_accepts haccepts, ih]
    | refused hroom hne =>
        rw [write_eq_cut hroom (List.length_pos_iff.2 hne), List.take_zero, put_nil]
  · intro h
    by_cases haccepts : sink.Accepts xs
    · rw [write_eq_put haccepts] at h
      cases h
      by_cases hne : xs = []
      · subst hne
        rw [put_nil]
        exact .nothing sink
      · have hpart := TakesInParts.part hne haccepts (.nothing _)
        rwa [List.append_nil] at hpart
    · obtain ⟨room, hroom, hless⟩ := exists_room_of_not_accepts haccepts
      rw [write_eq_cut hroom hless] at h
      cases h
      cases room with
      | zero =>
          rw [List.take_zero, put_nil]
          exact .refused hroom (List.ne_nil_of_length_pos hless)
      | succ room =>
          -- one part fills the sink, and the rest is refused
          have hlength : (xs.take (room + 1)).length = room + 1 :=
            List.length_take_of_le (Nat.le_of_lt hless)
          have hfirst : sink.Accepts (xs.take (room + 1)) := by
            intro room' hroom'
            cases hroom.symm.trans hroom'
            exact Nat.le_of_eq hlength
          have hfull : (sink.put (xs.take (room + 1))).room = some 0 := by
            rw [room_put, hroom, Option.map_some, hlength, Nat.sub_self]
          have hrest : xs.drop (room + 1) ≠ [] := by
            apply List.ne_nil_of_length_pos
            rw [List.length_drop]
            omega
          have hparts := TakesInParts.part (List.ne_nil_of_length_pos (by omega)) hfirst
            (.refused hfull hrest)
          rwa [List.take_append_drop] at hparts

/-- How a payload may be written: the length of its frame first and then the payload, both as the
sink takes them. -/
inductive WritesInParts (limit : Nat) (sink : Sink) (payload : Bytes) :
    Except FrameError Unit → Sink → Prop
  /-- The payload may not be sent, and nothing is written. -/
  | refused {e : FrameError} : Frame.encode limit payload = .error e →
      WritesInParts limit sink payload (.error e) sink
  /-- There is no room for the length, and the payload is not tried. -/
  | cutLength {frame : Bytes} {e : FrameError} {next : Sink} :
      Frame.encode limit payload = .ok frame →
      TakesInParts sink (Frame.lengthBytes payload.length) (.error e) next →
      WritesInParts limit sink payload (.error e) next
  | payload {frame : Bytes} {mid next : Sink} {result : Except FrameError Unit} :
      Frame.encode limit payload = .ok frame → TakesInParts sink (Frame.lengthBytes payload.length)
        (.ok ()) mid →
      TakesInParts mid payload result next → WritesInParts limit sink payload result next

/-- **A frame may be written in any parts.** -/
theorem writesInParts_iff {limit : Nat} {payload : Bytes} {result : Except FrameError Unit} :
    WritesInParts limit sink payload result next ↔
      sink.writeFrame limit payload = (result, next) := by
  cases hframe : Frame.encode limit payload with
  | error e =>
      rw [writeFrame, hframe]
      constructor
      · intro h
        cases h with
        | refused he => rw [Except.error.inj (hframe.symm.trans he)]
        | cutLength hok _ => cases hframe.symm.trans hok
        | payload hok _ _ => cases hframe.symm.trans hok
      · intro h
        cases h
        exact .refused hframe
  | ok frame =>
      obtain ⟨-, rfl⟩ := Frame.encode_eq_ok_iff.1 hframe
      -- a frame is one write, which is as good as two, of the length and of the payload
      have hwrite : sink.writeFrame limit payload =
          sink.write (Frame.lengthBytes payload.length ++ payload) := by
        rw [writeFrame, hframe]
        rfl
      rw [hwrite, write_append]
      constructor
      · intro h
        cases h with
        | refused he => cases hframe.symm.trans he
        | cutLength _ hcut => rw [takesInParts_iff.1 hcut]
        | payload _ htaken hrest => rw [takesInParts_iff.1 htaken, ← takesInParts_iff.1 hrest]
      · intro h
        split at h
        · next mid htaken =>
            exact .payload hframe (takesInParts_iff.2 htaken) (takesInParts_iff.2 h)
        · next e mid hcut =>
          cases h
          exact .cutLength hframe (takesInParts_iff.2 hcut)

end Sink

/-! ## Payload after payload

A payload that may not be sent leaves no trace in the sink. Of the others each adds its frame, until
one does not find room. -/

namespace Frame

variable {limit : Nat}

def framesOf (limit : Nat) (payloads : List Bytes) : List Bytes :=
  payloads.filterMap fun payload => (encode limit payload).toOption

/-- A payload that may be sent adds its frame. -/
theorem framesOf_cons_of_ok {payload frame : Bytes} (h : encode limit payload = .ok frame)
    (payloads : List Bytes) :
    framesOf limit (payload :: payloads) = frame :: framesOf limit payloads :=
  List.filterMap_cons_some (by rw [h]; rfl)

/-- A payload that may not be sent adds nothing. -/
theorem framesOf_cons_of_error {payload : Bytes} {e : FrameError}
    (h : encode limit payload = .error e) (payloads : List Bytes) :
    framesOf limit (payload :: payloads) = framesOf limit payloads :=
  List.filterMap_cons_none (by rw [h]; rfl)

/-- Where all payloads may be sent, there is a frame for each. -/
theorem framesOf_of_forall₂ {payloads frames : List Bytes}
    (h : List.Forall₂ (fun payload frame => encode limit payload = .ok frame) payloads frames) :
    framesOf limit payloads = frames := by
  induction h with
  | nil => rfl
  | cons hframe _ ih => rw [framesOf_cons_of_ok hframe, ih]

/-- No payload is refused for want of room. -/
theorem encode_ne_io (limit : Nat) (payload : Bytes) (reason : Refusal) :
    encode limit payload ≠ .error (.io reason) := by
  intro h
  simp only [encode] at h
  split at h
  · cases h
  · split at h
    · cases h
    · split at h
      all_goals cases h

/-- No frame is empty. -/
theorem ne_nil_of_encode {payload frame : Bytes} (h : encode limit payload = .ok frame) :
    frame ≠ [] := by
  obtain ⟨-, rfl⟩ := encode_eq_ok_iff.1 h
  apply List.ne_nil_of_length_pos
  rw [length_ofPayload]
  exact Nat.succ_pos _

end Frame

namespace Sink

variable {limit : Nat} {sink : Sink}

def writeFrames (limit : Nat) : Sink → List Bytes → List (Except FrameError Unit) × Sink
  | sink, [] => ([], sink)
  | sink, payload :: payloads =>
    let (result, sink) := sink.writeFrame limit payload
    let (results, sink) := sink.writeFrames limit payloads
    (result :: results, sink)

/-- The payloads of which every byte was taken. -/
def delivered (limit : Nat) (sink : Sink) (payloads : List Bytes) : List Bytes :=
  ((payloads.zip (sink.writeFrames limit payloads).1).filter (·.2.isOk)).map (·.1)

/-- A payload that was written whole is delivered. -/
theorem delivered_cons_of_ok {next : Sink} {payload : Bytes}
    (h : sink.writeFrame limit payload = (.ok (), next)) (payloads : List Bytes) :
    sink.delivered limit (payload :: payloads) = payload :: next.delivered limit payloads := by
  simp only [delivered, writeFrames, h]
  rfl

/-- A payload that was refused or cut is not. -/
theorem delivered_cons_of_error {next : Sink} {payload : Bytes} {e : FrameError}
    (h : sink.writeFrame limit payload = (.error e, next)) (payloads : List Bytes) :
    sink.delivered limit (payload :: payloads) = next.delivered limit payloads := by
  simp only [delivered, writeFrames, h]
  rfl

/-- No write fails for want of room. -/
def Unfailed (limit : Nat) (sink : Sink) (payloads : List Bytes) : Prop :=
  .error (.io .write) ∉ (sink.writeFrames limit payloads).1

/-! ### Failures

The first payload without room is the last that leaves bytes in the sink. All before it are whole,
and a sink that is full stays as it is. -/

/-- Writing some payloads and then others is writing all of them. -/
theorem writeFrames_append (limit : Nat) (sink : Sink) (before later : List Bytes) :
    (sink.writeFrames limit (before ++ later)).2 =
      ((sink.writeFrames limit before).2.writeFrames limit later).2 := by
  induction before generalizing sink with
  | nil => rfl
  | cons payload before ih => exact ih _

/-- **What a payload comes to**: it is refused and nothing is written, or there is room for its
frame, or the frame is cut and the sink is full. -/
theorem writeFrame_cases (limit : Nat) (sink : Sink) (payload : Bytes) :
    (∃ e, Frame.encode limit payload = .error e ∧
      sink.writeFrame limit payload = (.error e, sink)) ∨
    (∃ frame, Frame.encode limit payload = .ok frame ∧ sink.Accepts frame ∧
      sink.writeFrame limit payload = (.ok (), sink.put frame)) ∨
    ∃ frame room, Frame.encode limit payload = .ok frame ∧ sink.room = some room ∧
    room < frame.length ∧
      sink.writeFrame limit payload = (.error (.io .write), sink.put (frame.take room)) := by
  unfold writeFrame
  cases hframe : Frame.encode limit payload with
  | error e => exact .inl ⟨e, rfl, rfl⟩
  | ok frame =>
      by_cases haccepts : sink.Accepts frame
      · exact .inr (.inl ⟨frame, rfl, haccepts, write_eq_put haccepts⟩)
      · obtain ⟨room, hroom, hless⟩ := exists_room_of_not_accepts haccepts
        exact .inr (.inr ⟨frame, room, rfl, hroom, hless, write_eq_cut hroom hless⟩)

/-- A sink that a frame was cut for is full. -/
theorem room_put_take {room : Nat} {frame : Bytes} (hroom : sink.room = some room)
    (hless : room < frame.length) :
    (sink.put (frame.take room)).room = some 0 := by
  rw [room_put, hroom, Option.map_some, List.length_take_of_le (Nat.le_of_lt hless), Nat.sub_self]

/-- A full sink takes nothing more. -/
theorem writeFrames_of_full (limit : Nat) (hfull : sink.room = some 0) (payloads : List Bytes) :
    (sink.writeFrames limit payloads).2 = sink ∧ sink.delivered limit payloads = [] := by
  induction payloads with
  | nil => exact ⟨rfl, rfl⟩
  | cons payload payloads ih =>
      have hstep : ∃ e, sink.writeFrame limit payload = (.error e, sink) := by
        rcases writeFrame_cases limit sink payload with
          ⟨e, -, h⟩ | ⟨frame, hframe, haccepts, -⟩ | ⟨frame, room, -, hroom, -, h⟩
        · exact ⟨e, h⟩
        · -- a frame has bytes, and there is no room for any
          have hpos : 0 < frame.length := List.length_pos_iff.2 (Frame.ne_nil_of_encode hframe)
          exact absurd (haccepts 0 hfull) (Nat.not_le.2 hpos)
        · cases hfull.symm.trans hroom
          rw [List.take_zero, put_nil] at h
          exact ⟨_, h⟩
      obtain ⟨e, hstep⟩ := hstep
      rw [delivered_cons_of_error hstep]
      simp only [writeFrames, hstep]
      exact ih

/-- **Until a write fails, a sink holds whole frames**, those of the payloads that may be sent. -/
theorem writeFrames_of_unfailed {payloads : List Bytes} (h : sink.Unfailed limit payloads) :
    sink.Accepts (Frame.framesOf limit payloads).flatten ∧
      (sink.writeFrames limit payloads).2 = sink.put (Frame.framesOf limit payloads).flatten := by
  induction payloads generalizing sink with
  | nil => exact ⟨accepts_nil, put_nil.symm⟩
  | cons payload payloads ih =>
      rcases writeFrame_cases limit sink payload with
        ⟨e, he, hstep⟩ | ⟨frame, hframe, haccepts, hstep⟩ | ⟨frame, room, -, -, -, hstep⟩
      · simp only [Unfailed, writeFrames, hstep, List.mem_cons, not_or] at h ⊢
        rw [Frame.framesOf_cons_of_error he]
        exact ih h.2
      · simp only [Unfailed, writeFrames, hstep, List.mem_cons, not_or] at h ⊢
        obtain ⟨hrest, hsink⟩ := ih h.2
        rw [Frame.framesOf_cons_of_ok hframe, List.flatten_cons, hsink, put_put]
        exact ⟨accepts_append_iff.2 ⟨haccepts, hrest⟩, rfl⟩
      · simp only [Unfailed, writeFrames, hstep, List.mem_cons, true_or, not_true_eq_false] at h

/-- **Where a write fails, part of a frame is left and the sink is full**, and so it stays. -/
theorem writeFrames_of_failure {before : List Bytes} {payload : Bytes}
    (h : sink.Unfailed limit before)
    (hfails : ((sink.writeFrames limit before).2.writeFrame limit payload).1 =
      .error (.io .write)) :
    ∃ frame cut, Frame.encode limit payload = .ok frame ∧ cut <+: frame ∧ cut ≠ frame ∧
      sink.room = some ((Frame.framesOf limit before).flatten ++ cut).length ∧
      ∀ later, (sink.writeFrames limit (before ++ payload :: later)).2 =
        sink.put ((Frame.framesOf limit before).flatten ++ cut) := by
  obtain ⟨haccepts, hbefore⟩ := writeFrames_of_unfailed h
  rcases writeFrame_cases limit (sink.writeFrames limit before).2 payload with
    ⟨e, he, hstep⟩ | ⟨frame, -, -, hstep⟩ | ⟨frame, room, hframe, hroom, hless, hstep⟩
  · rw [hstep] at hfails
    cases hfails
    exact absurd he (Frame.encode_ne_io limit payload .write)
  · rw [hstep] at hfails
    cases hfails
  · refine ⟨frame, frame.take room, hframe, List.take_prefix _ _, ?_, ?_, fun later => ?_⟩
    · exact fun heq => Nat.not_le.2 hless ((List.take_eq_self_iff frame).1 heq)
    · rw [hbefore, room_put, Option.map_eq_some_iff] at hroom
      obtain ⟨capacity, hcapacity, rfl⟩ := hroom
      have hle := haccepts capacity hcapacity
      rw [hcapacity, Option.some_inj, List.length_append,
        List.length_take_of_le (Nat.le_of_lt hless)]
      omega
    · rw [writeFrames_append, ← put_put, ← hbefore]
      simp only [writeFrames, hstep]
      exact (writeFrames_of_full limit (room_put_take hroom hless) later).1

/-! ## Reading what was written

The bytes in a sink are whole frames and at most one that is cut, so a reader of them finds the
payloads that were delivered and then the end, or that a frame is cut short. -/

/-- **A sink holds the frames of the payloads that were written, and at most part of one more.** -/
theorem exists_bytes_writeFrames (limit : Nat) (sink : Sink) (payloads : List Bytes) :
    ∃ frames cut,
      List.Forall₂ (fun payload frame => Frame.encode limit payload = .ok frame)
        (sink.delivered limit payloads) frames ∧
      (sink.writeFrames limit payloads).2.bytes = sink.bytes ++ (frames.flatten ++ cut) ∧
      (cut = [] ∨ ∃ payload frame, Frame.encode limit payload = .ok frame ∧ cut <+: frame ∧
        cut ≠ frame) := by
  induction payloads generalizing sink with
  | nil => exact ⟨[], [], .nil, by simp [writeFrames], .inl rfl⟩
  | cons payload payloads ih =>
      rcases writeFrame_cases limit sink payload with
        ⟨e, -, hstep⟩ | ⟨frame, hframe, -, hstep⟩ | ⟨frame, room, hframe, hroom, hless, hstep⟩
      · rw [delivered_cons_of_error hstep]
        simp only [writeFrames, hstep]
        exact ih sink
      · obtain ⟨frames, cut, hdelivered, hbytes, hcut⟩ := ih (sink.put frame)
        refine ⟨frame :: frames, cut, ?_, ?_, hcut⟩
        · rw [delivered_cons_of_ok hstep]
          exact .cons hframe hdelivered
        · simp only [writeFrames, hstep, hbytes, bytes_put, List.flatten_cons, List.append_assoc]
      · obtain ⟨hsink, hnothing⟩ := writeFrames_of_full limit (room_put_take hroom hless) payloads
        refine ⟨[], frame.take room, ?_, ?_,
          .inr ⟨payload, frame, hframe, List.take_prefix _ _, ?_⟩⟩
        · rw [delivered_cons_of_error hstep, hnothing]
          exact .nil
        · simp only [writeFrames, hstep, hsink, bytes_put, List.flatten_nil, List.nil_append]
        · exact fun heq => Nat.not_le.2 hless ((List.take_eq_self_iff frame).1 heq)

end Sink

/-- Reading part of a frame, and not none of it, says that the stream is cut short. -/
theorem Frame.verdict_of_cut {limit : Nat} {payload frame cut : Bytes}
    (hframe : encode limit payload = .ok frame) (hstart : cut <+: frame) (hne : cut ≠ frame)
    (hpos : cut ≠ []) :
    ∃ expected received, Verdict limit cut (.error (.truncated expected received)) [] := by
  obtain ⟨⟨hpayload, hle⟩, rfl⟩ := encode_eq_ok_iff.1 hframe
  have hless : cut.length < payload.length + 4 := by
    rw [← length_ofPayload]
    apply Nat.lt_of_le_of_ne hstart.length_le
    exact fun heq => hne (hstart.eq_of_length heq)
  by_cases hshort : cut.length ≤ 3
  · exact ⟨_, _, .cutLength (List.length_pos_iff.2 hpos) hshort⟩
  · -- all four bytes of the length are there, so it is the payload that is missing some
    have hheader : cut.take 4 = lengthBytes payload.length := by
      rw [List.prefix_iff_eq_take.1 hstart, List.take_take, Nat.min_eq_left (by omega)]
      exact List.take_left' (length_lengthBytes _)
    have hbody : (cut.drop 4).length < payload.length := by
      rw [List.length_drop]
      omega
    obtain ⟨hfits, hmax⟩ := Nat.le_min.1 hle
    have hcheck : checkLength limit (lengthBytes payload.length) = .ok payload.length :=
      checkLength_lengthBytes hmax hpayload hfits
    obtain ⟨hsigned, -, hlimit⟩ := checkLength_eq_ok_iff.1 hcheck
    have hverdict := Verdict.cutPayload (length_lengthBytes _) hsigned hlimit hbody
    rw [← hheader, List.take_append_drop] at hverdict
    exact ⟨_, _, hverdict⟩

namespace Source

/-- Reading some frames and then others is reading all of them. -/
theorem readFrames_add (limit m n : Nat) (s : Source) :
    s.readFrames limit (m + n) =
      ((s.readFrames limit m).1 ++ ((s.readFrames limit m).2.readFrames limit n).1,
        ((s.readFrames limit m).2.readFrames limit n).2) := by
  induction m generalizing s with
  | zero => simp [readFrames]
  | succ m ih => simp only [Nat.succ_add, readFrames, ih, List.cons_append]

/-- Reading does not change how a stream ends. -/
theorem ending_readFrames (limit n : Nat) (s : Source) :
    (s.readFrames limit n).2.ending = s.ending := by
  induction n generalizing s with
  | zero => rfl
  | succ n ih => exact (ih _).trans (s.readFrame_eq limit).2.2

/-- At its end, a stream that is closed gives nothing, however often it is read. -/
theorem readFrames_end (limit : Nat) {s : Source} (hclosed : s.ending = .closed)
    (hcontent : s.content = []) (n : Nat) :
    (s.readFrames limit n).1 = List.replicate n (some (.ok none)) := by
  induction n generalizing s with
  | zero => rfl
  | succ n ih =>
      obtain ⟨hresult, hrest, hending⟩ := s.readFrame_eq limit
      rw [hcontent] at hresult hrest
      rw [hclosed] at hresult hending
      rw [List.drop_nil] at hrest
      rw [List.replicate_succ, ← ih hending hrest]
      simp only [readFrames, hresult]
      rfl

end Source

namespace Sink

/-- **What was written is read**, and then the stream ends or is cut short. -/
theorem readFrames_written {limit : Nat} {sink : Sink} {payloads : List Bytes}
    (hempty : sink.bytes = []) {source : Source} (hclosed : source.ending = .closed)
    (hcontent : source.content = (sink.writeFrames limit payloads).2.bytes) :
    ∃ (cut : Bytes) (stop : FrameResult),
      (sink.writeFrames limit payloads).2.bytes =
        (Frame.framesOf limit (sink.delivered limit payloads)).flatten ++ cut ∧
      (cut = [] ∧ stop = .ok none ∨
        cut ≠ [] ∧ ∃ expected received, stop = .error (.truncated expected received)) ∧
      ∀ more, (source.readFrames limit ((sink.delivered limit payloads).length + (1 + more))).1 =
        (sink.delivered limit payloads).map (fun payload => some (.ok (some payload))) ++
          some stop :: List.replicate more (some (.ok none)) := by
  obtain ⟨frames, cut, hdelivered, hbytes, hcut⟩ := exists_bytes_writeFrames limit sink payloads
  rw [hempty, List.nil_append] at hbytes
  obtain ⟨left, hreads, hleft⟩ := Source.readFrames_frames hdelivered (hcontent.trans hbytes)
  have hending : left.ending = .closed := by
    have hkept := source.ending_readFrames limit (sink.delivered limit payloads).length
    rwa [hreads, hclosed] at hkept
  -- behind the whole frames there is nothing, or the start of one more
  obtain ⟨stop, hstop, hverdict⟩ : ∃ stop : FrameResult,
      (cut = [] ∧ stop = .ok none ∨
        cut ≠ [] ∧ ∃ expected received, stop = .error (.truncated expected received)) ∧
      Frame.Verdict limit cut stop [] := by
    by_cases hnone : cut = []
    · subst hnone
      exact ⟨_, .inl ⟨rfl, rfl⟩, .nothing⟩
    · obtain ⟨payload, frame, hframe, hstart, hne⟩ := hcut.resolve_left hnone
      obtain ⟨expected, received, hverdict⟩ := Frame.verdict_of_cut hframe hstart hne hnone
      exact ⟨_, .inr ⟨hnone, expected, received, rfl⟩, hverdict⟩
  rw [← hleft] at hverdict
  obtain ⟨rest, hread, hrest⟩ := (Source.readFrame_iff_verdict hending stop []).2 hverdict
  have hrestEnding : rest.ending = .closed := by
    have hkept := (left.readFrame_eq limit).2.2
    rwa [hread, hending] at hkept
  -- the frames, the verdict on what is cut, and then nothing any more
  refine ⟨cut, stop, ?_, hstop, fun more => ?_⟩
  · rw [hbytes, Frame.framesOf_of_forall₂ hdelivered]
  · have hmore := Source.readFrames_end limit hrestEnding hrest more
    rw [Source.readFrames_add, hreads, Source.readFrames_add]
    simp only [Source.readFrames, hread, hmore]
    rfl

/-- **A sink holds whole frames, and part of one where it was full.** However the writes of a frame
are cut, it is written alike. A payload that may not be sent leaves the sink as it is. Until a write
fails, the sink holds the frames of the others. Where one fails, part of its frame comes in
addition, the sink holds as many bytes as it can, and nothing is added later. So a reader of the
sink gets the payloads that were written, in their order, then nothing or an error that the stream
is cut short, and no payload ever after. -/
theorem holds_written_frames (limit : Nat) (room : Option Nat) :
    (∀ (sink next : Sink) (payload : Bytes) (result : Except FrameError Unit),
      WritesInParts limit sink payload result next ↔
      sink.writeFrame limit payload = (result, next)) ∧
    (∀ (sink : Sink) (payload : Bytes), payload = [] ∨ min limit Frame.maxLength < payload.length →
      ∃ e, Frame.encode limit payload = .error e ∧ e ≠ .io .write ∧
        sink.writeFrame limit payload = (.error e, sink)) ∧
    (∀ before, (ofRoom room).Unfailed limit before →
      ((ofRoom room).writeFrames limit before).2.bytes = (Frame.framesOf limit before).flatten) ∧
    (∀ before payload, (ofRoom room).Unfailed limit before →
      (((ofRoom room).writeFrames limit before).2.writeFrame limit payload).1 =
      .error (.io .write) →
      ∃ frame cut, Frame.encode limit payload = .ok frame ∧ cut <+: frame ∧ cut ≠ frame ∧
        room = some ((Frame.framesOf limit before).flatten ++ cut).length ∧
        ∀ later, ((ofRoom room).writeFrames limit (before ++ payload :: later)).2.bytes =
          (Frame.framesOf limit before).flatten ++ cut) ∧
    ∀ (payloads : List Bytes) (source : Source), source.ending = .closed →
      source.content = ((ofRoom room).writeFrames limit payloads).2.bytes →
      ∃ (cut : Bytes) (stop : FrameResult),
        source.content = (Frame.framesOf limit ((ofRoom room).delivered limit payloads)).flatten ++
        cut ∧
        (cut = [] ∧ stop = .ok none ∨
          cut ≠ [] ∧ ∃ expected received, stop = .error (.truncated expected received)) ∧
        ∀ more, (source.readFrames limit (((ofRoom room).delivered limit payloads).length +
          (1 + more))).1 =
          ((ofRoom room).delivered limit payloads).map (fun payload => some (.ok (some payload))) ++
            some stop :: List.replicate more (some (.ok none)) := by
  have hempty : (ofRoom room).bytes = [] := rfl
  refine ⟨fun _ _ _ _ => writesInParts_iff, ?_, ?_, ?_, ?_⟩
  · intro sink payload hunfit
    cases hframe : Frame.encode limit payload with
    | error e =>
        refine ⟨e, rfl, ?_, ?_⟩
        · rintro rfl
          exact Frame.encode_ne_io limit payload .write hframe
        · rw [writeFrame, hframe]
    | ok frame =>
        -- only what fits is made a frame
        obtain ⟨⟨hpos, hle⟩, -⟩ := Frame.encode_eq_ok_iff.1 hframe
        rcases hunfit with rfl | hlong
        · exact absurd hpos (Nat.lt_irrefl 0)
        · exact absurd hle (Nat.not_le.2 hlong)
  · intro before h
    rw [(writeFrames_of_unfailed h).2, bytes_put, hempty, List.nil_append]
  · intro before payload h hfails
    obtain ⟨frame, cut, hframe, hstart, hne, hroom, hlater⟩ := writeFrames_of_failure h hfails
    refine ⟨frame, cut, hframe, hstart, hne, hroom, fun later => ?_⟩
    rw [hlater later, bytes_put, hempty, List.nil_append]
  · intro payloads source hclosed hcontent
    rw [hcontent]
    exact readFrames_written hempty hclosed hcontent

/-- Of ten bytes, five are for the first payload. The empty one takes none, and the third one is cut
within. -/
theorem holds_written_frames_cut :
    (∃ e, Frame.encode 64 [] = .error e ∧ e ≠ .io .write ∧
      (ofRoom (some 10)).writeFrame 64 [] = (.error e, ofRoom (some 10))) ∧
    (ofRoom (some 10)).Unfailed 64 [[65], []] ∧
    ((ofRoom (some 10)).writeFrames 64 [[65], []]).2.bytes = [1, 0, 0, 0, 65] ∧
    (((ofRoom (some 10)).writeFrames 64 [[65], []]).2.writeFrame 64 [66, 67]).1 =
    .error (.io .write) ∧
    (∃ cut : Bytes, cut <+: [2, 0, 0, 0, 66, 67] ∧ cut.length = 5 ∧
      ∀ later, ((ofRoom (some 10)).writeFrames 64 ([[65], []] ++ [66, 67] :: later)).2.bytes =
        [1, 0, 0, 0, 65] ++ cut) ∧
    ∃ (cut : Bytes) (stop : FrameResult), [1, 0, 0, 0, 65, 2, 0, 0, 0, 66] =
    [1, 0, 0, 0, 65] ++ cut ∧
      (∃ expected received, stop = .error (.truncated expected received)) ∧
      ∀ more, ((Source.ofBytes [1, 0, 0, 0, 65, 2, 0, 0, 0, 66]).readFrames 64 (1 + (1 + more))).1 =
        some (.ok (some [65])) :: some stop :: List.replicate more (some (.ok none)) := by
  obtain ⟨-, hrefused, hunfailed, hfails, hreads⟩ := holds_written_frames 64 (some 10)
  have hbefore : (ofRoom (some 10)).Unfailed 64 [[65], []] := by
    unfold Unfailed
    decide
  refine ⟨hrefused _ [] (.inl rfl), hbefore, hunfailed _ hbefore, by decide, ?_, ?_⟩
  · obtain ⟨frame, cut, hframe, hstart, -, hroom, hlater⟩ :=
      hfails [[65], []] [66, 67] hbefore (by decide)
    cases hframe
    refine ⟨cut, hstart, ?_, hlater⟩
    rw [Option.some_inj, List.length_append] at hroom
    exact (Nat.add_left_cancel hroom).symm
  · obtain ⟨cut, stop, hcontent, hstop, hresults⟩ :=
      hreads [[65], [], [66, 67], [68]] (.ofBytes [1, 0, 0, 0, 65, 2, 0, 0, 0, 66]) rfl (by decide)
    refine ⟨cut, stop, hcontent, ?_, hresults⟩
    rcases hstop with ⟨rfl, -⟩ | ⟨-, hstop⟩
    · cases hcontent
    · exact hstop

end Sink

end SharpTokens
