import Mathlib.Order.Bounds.Defs
import SharpTokens.Proofs.Text.Places
import SharpTokens.Token.Deltas

/-!
# The relative form is exact

`Relative` says, with numbers that have no bound, how the words of an array place tokens one behind
another. Tokens are written as an array exactly if it places them so (`encode_eq_ok_iff`), and an
array is read as tokens exactly if it places them so (`decode_eq_ok_iff`). Hence each undoes the
other.

Tokens have a relative form exactly if they are in reading order (`exists_encode_iff`), and an array
has tokens exactly if it is one of whole tokens and no sum goes beyond a word (`exists_decode_iff`).
Otherwise the first token at fault is named.

Both directions go through a relation on tokens and words that uses no word arithmetic. The two
functions are compared with it by induction on the tokens, or on the array five words at a time,
with the position of the last token as a parameter. Errors are compared with the first index at
which the relation cannot go on.
-/

namespace SharpTokens

open Text

/-! ## Reading order

Tokens are compared by where they start, line first. -/

namespace Token

theorem le_trans (s t u : Token) (hst : s.le t = true) (htu : t.le u = true) : s.le u = true :=
  Position.le_trans hst htu

theorem le_total (s t : Token) : (s.le t || t.le s) = true :=
  Position.le_total s.position t.position

end Token

namespace Deltas

/-! ## One token behind another

A difference of words is right where it is not negative, and a sum where it is below 2^32. Reading
order gives the first, and the second is checked. -/

/-- The place that two words lead to from another one: lines add up, and columns do so on the same
line. -/
def moved (before : Nat × Nat) (line start : UInt32) : Nat × Nat :=
  (before.1 + line.toNat, if line = 0 then before.2 + start.toNat else start.toNat)

/-- A place whose line and column are words. -/
def InRange (place : Nat × Nat) : Prop := place.1 < UInt32.size ∧ place.2 < UInt32.size

theorem inRange_place (p : Position) : InRange p.place :=
  ⟨p.line.toNat_lt_size, p.character.toNat_lt_size⟩

/-- A place in range is that of a position. -/
theorem exists_place_eq {place : Nat × Nat} (h : InRange place) : ∃ p :
    Position, p.place = place := by
  obtain ⟨line, column⟩ := place
  obtain ⟨hline, hcolumn⟩ := h
  refine ⟨⟨line.toUInt32, column.toUInt32⟩, ?_⟩
  show (line.toUInt32.toNat, column.toUInt32.toNat) = (line, column)
  rw [Nat.toUInt32_eq, Nat.toUInt32_eq, UInt32.toNat_ofNat_of_lt' hline,
    UInt32.toNat_ofNat_of_lt' hcolumn]

/-- A checked sum is the sum, if it is a word. -/
theorem sum?_eq_some_iff {a b c : UInt32} : sum? a b = some c ↔ a.toNat + b.toNat = c.toNat := by
  unfold sum?
  split
  · next hlt =>
    have hsum : (a + b).toNat = a.toNat + b.toNat := by
      rw [UInt32.toNat_add]
      exact Nat.mod_eq_of_lt hlt
    rw [Option.some_inj, ← UInt32.toNat_inj, hsum]
  · next hge =>
    constructor
    · intro h
      cases h
    · intro h
      exact absurd (h ▸ c.toNat_lt_size) hge

/-- Where two words lead to, line and column apart. -/
theorem moved_eq_place_iff {before p : Position} {line start : UInt32} :
    moved before.place line start = p.place ↔ before.line.toNat + line.toNat = p.line.toNat ∧
      (if line = 0 then before.character.toNat + start.toNat else start.toNat) =
      p.character.toNat :=
  Prod.mk.injEq .. ▸ Iff.rfl

/-- Positions are moved as numbers add up. -/
theorem move?_eq_some_iff {before p : Position} {line start : UInt32} :
    move? before line start = some p ↔ moved before.place line start = p.place := by
  obtain ⟨newLine, newStart⟩ := p
  rw [moved_eq_place_iff, ← sum?_eq_some_iff]
  unfold move?
  by_cases hline : line = 0
  · rw [if_pos hline, ← sum?_eq_some_iff]
    simp [hline, Option.bind_eq_some_iff]
  · rw [if_neg hline, UInt32.toNat_inj]
    simp only [hline, if_false, Option.bind_eq_bind, Option.bind_eq_some_iff, Option.bind_some]
    grind

/-- A position cannot be moved where it would leave the range. -/
theorem move?_eq_none_iff {before : Position} {line start : UInt32} :
    move? before line start = none ↔ ¬ InRange (moved before.place line start) := by
  constructor
  · intro hnone hrange
    obtain ⟨p, hp⟩ := exists_place_eq hrange
    rw [move?_eq_some_iff.2 hp.symm] at hnone
    cases hnone
  · intro hrange
    cases hmove : move? before line start with
    | none => rfl
    | some p =>
        rw [move?_eq_some_iff.1 hmove] at hrange
        exact absurd (inRange_place p) hrange

theorem toNat_pos {a : UInt32} (h : a ≠ 0) : 0 < a.toNat :=
  Nat.pos_of_ne_zero fun hzero => h (UInt32.toNat_inj.1 hzero)

/-- A difference of words is one of numbers, if it is not negative. -/
theorem sub_eq_iff {a b c : UInt32} (h : b ≤ a) : a - b = c ↔ b.toNat + c.toNat = a.toNat := by
  have hle := UInt32.le_iff_toNat_le.1 h
  rw [← UInt32.toNat_inj, UInt32.toNat_sub_of_le _ _ h]
  omega

/-- Where one position is not before another one, differences lead to it, and nothing else does.
What is subtracted for them is never too much. -/
theorem moved_eq_iff_sub {before p : Position} {line start : UInt32} :
    moved before.place line start = p.place ↔ before.le p = true ∧ p.line - before.line = line ∧
      (if p.line = before.line then p.character - before.character else p.character) = start := by
  rw [moved_eq_place_iff]
  constructor
  · rintro ⟨hline, hcolumn⟩
    have hlines : before.line ≤ p.line := UInt32.le_iff_toNat_le.2 (hline ▸ Nat.le_add_right _ _)
    -- on the same line columns are relative, and on another one they are not
    by_cases hzero : line = 0
    · subst hzero
      have heq : p.line = before.line := UInt32.toNat_inj.1 hline.symm
      have hcolumn : before.character.toNat + start.toNat = p.character.toNat := hcolumn
      have hcolumns : before.character ≤ p.character :=
        UInt32.le_iff_toNat_le.2 (hcolumn ▸ Nat.le_add_right _ _)
      rw [if_pos heq]
      exact ⟨Position.le_iff.2 (Or.inr ⟨hline, UInt32.le_iff_toNat_le.1 hcolumns⟩),
        (sub_eq_iff hlines).2 hline,
        (sub_eq_iff hcolumns).2 hcolumn⟩
    · have hless : before.line.toNat < p.line.toNat :=
        hline ▸ Nat.lt_add_of_pos_right (toNat_pos hzero)
      rw [if_neg hzero] at hcolumn
      rw [if_neg fun h => Nat.ne_of_gt hless (UInt32.toNat_inj.2 h)]
      exact ⟨Position.le_iff.2 (Or.inl hless), (sub_eq_iff hlines).2 hline,
        (UInt32.toNat_inj.1 hcolumn).symm⟩
  · rintro ⟨hle, hline, hcolumn⟩
    rcases Position.le_iff.1 hle with hless | ⟨heq, hcolumns⟩
    · have hlines : before.line ≤ p.line := UInt32.le_iff_toNat_le.2 (Nat.le_of_lt hless)
      rw [sub_eq_iff hlines] at hline
      have hzero : line ≠ 0 := by
        rintro rfl
        exact Nat.ne_of_lt hless hline
      rw [if_neg fun h => Nat.ne_of_gt hless (UInt32.toNat_inj.2 h)] at hcolumn
      rw [if_neg hzero, hcolumn]
      exact ⟨hline, rfl⟩
    · have heq : p.line = before.line := UInt32.toNat_inj.1 heq.symm
      rw [heq, UInt32.sub_self] at hline
      subst hline
      rw [if_pos heq, sub_eq_iff (UInt32.le_iff_toNat_le.2 hcolumns)] at hcolumn
      exact ⟨congrArg UInt32.toNat heq.symm, hcolumn⟩

/-! ## Arrays

The accumulators of the two loops only grow, so what they hold before does not matter. -/

/-- Where the tokens of an array behind a place are, in numbers without a bound. -/
def places (before : Nat × Nat) : List UInt32 → List (Nat × Nat)
  | line :: start :: _ :: _ :: _ :: rest =>
    moved before line start :: places (moved before line start) rest
  | _ => []

/-- An array has the words of tokens behind a position, where sums are those of numbers without a
bound. -/
inductive Relative : Position → List Token → List UInt32 → Prop
  | nil {before : Position} : Relative before [] []
  | cons {before : Position} {t : Token} {rest : List Token} {line start : UInt32}
      {data : List UInt32} (first : moved before.place line start = t.position.place)
      (others : Relative t.position rest data) :
      Relative before (t :: rest) (line :: start :: t.length :: t.type :: t.modifiers :: data)

namespace Relative

variable {before : Position} {tokens : List Token} {data : List UInt32}

/-- There are five words to a token. -/
theorem length_eq (h : Relative before tokens data) : data.length = 5 * tokens.length := by
  induction h with
  | nil => rfl
  | cons _ _ ih =>
      simp only [List.length_cons, ih]
      omega

/-- The places of an array with tokens are where the tokens are. -/
theorem inRange (h : Relative before tokens data) :
    ∀ place ∈ places before.place data, InRange place := by
  induction h with
  | nil => simp [places]
  | @cons before t rest line start data first _ ih =>
      rw [places, first, List.forall_mem_cons]
      exact ⟨inRange_place t.position, ih⟩

/-! ### Both loops

What a loop gives is what it has found, and then what it gives when it starts with nothing. -/

/-- Tokens that an array places are written as this array. -/
theorem encodeFrom_eq (h : Relative before tokens data) (index : Nat) (found : Array UInt32) :
    encodeFrom before index tokens found = .ok (found ++ data) := by
  induction h generalizing index found with
  | nil => simp [encodeFrom]
  | @cons before t rest line start data first _ ih =>
      obtain ⟨hle, hline, hstart⟩ := moved_eq_iff_sub.1 first
      have hentry : entry before t = #[line, start, t.length, t.type, t.modifiers] := by
        rw [← hline, ← hstart]
        rfl
      rw [encodeFrom, if_pos hle, ih, hentry]
      exact congrArg Except.ok (Array.toList_inj.1 (by simp))

/-- An array that places tokens is read as these. -/
theorem decodeFrom_eq (h : Relative before tokens data) (index : Nat) (found : Array Token) :
    decodeFrom before index data found = .ok (found ++ tokens) := by
  induction h generalizing index found with
  | nil => simp [decodeFrom]
  | @cons before t rest line start data first _ ih =>
      rw [decodeFrom, move?_eq_some_iff.2 first]
      show decodeFrom t.position (index + 1) data (found.push t) = _
      rw [ih]
      simp

end Relative

/-- Tokens have a relative form behind a position exactly if none of them is before it or before
another one that precedes it. -/
theorem exists_relative_iff {before : Position} {tokens : List Token} :
    (∃ data, Relative before tokens data) ↔
      (∀ t ∈ tokens, before.le t.position = true) ∧ tokens.Pairwise fun s t => s.le t = true := by
  induction tokens generalizing before with
  | nil => exact ⟨fun _ => ⟨by simp, .nil⟩, fun _ => ⟨[], .nil⟩⟩
  | cons t rest ih =>
      rw [List.forall_mem_cons, List.pairwise_cons]
      constructor
      · rintro ⟨_, _ | ⟨first, others⟩⟩
        obtain ⟨hbehind, hsorted⟩ := ih.1 ⟨_, others⟩
        have hle := (moved_eq_iff_sub.1 first).1
        exact ⟨⟨hle, fun u hu => Position.le_trans hle (hbehind u hu)⟩, hbehind, hsorted⟩
      · rintro ⟨⟨hle, -⟩, hbehind, hsorted⟩
        obtain ⟨data, others⟩ := ih.2 ⟨hbehind, hsorted⟩
        exact ⟨_, .cons (moved_eq_iff_sub.2 ⟨hle, rfl, rfl⟩) others⟩

/-- What is written places the tokens. -/
theorem relative_of_encodeFrom {before : Position} {index : Nat} {tokens : List Token}
    {found out : Array UInt32} (h : encodeFrom before index tokens found = .ok out) :
    ∃ data, Relative before tokens data := by
  induction tokens generalizing before index found with
  | nil => exact ⟨[], .nil⟩
  | cons t rest ih =>
      rw [encodeFrom] at h
      split at h
      · next hle =>
        obtain ⟨data, others⟩ := ih h
        exact ⟨_, .cons (moved_eq_iff_sub.2 ⟨hle, rfl, rfl⟩) others⟩
      · cases h

/-- What is read is placed by the array, if it has five words for each token. -/
theorem relative_of_decodeFrom {before : Position} {index : Nat} {data : List UInt32}
    {found out : Array Token} (haligned : data.length % 5 = 0)
    (h : decodeFrom before index data found = .ok out) :
    ∃ tokens, Relative before tokens data := by
  fun_induction decodeFrom before index data found with
  | case1 before index line start length type modifiers rest found p hmove ih =>
      have hrest : rest.length % 5 = 0 := by
        simp only [List.length_cons] at haligned
        omega
      obtain ⟨tokens, others⟩ := ih hrest h
      exact ⟨⟨p.line, p.character, length, type, modifiers⟩ :: tokens,
        .cons (move?_eq_some_iff.1 hmove) others⟩
  | case2 => cases h
  | case3 data before index found hshort =>
      -- fewer than five words are none at all
      match data with
      | [] => exact ⟨[], .nil⟩
      | [_] | [_, _] | [_, _, _] | [_, _, _, _] => cases haligned
      | line :: start :: length :: type :: modifiers :: rest =>
        exact absurd rfl (hshort line start length type modifiers rest)

/-! ### Whole arrays

The first token is placed relative to the start of the text. -/

/-- **Tokens are written as the array that places them.** -/
theorem encode_eq_ok_iff {tokens : List Token} {data : List UInt32} :
    encode tokens = .ok data ↔ Relative ⟨0, 0⟩ tokens data := by
  have hencode {data : List UInt32} (h : Relative ⟨0, 0⟩ tokens data) :
      encode tokens = .ok data := by
    unfold encode
    rw [h.encodeFrom_eq]
    simp [Except.map]
  constructor
  · intro h
    cases hfrom : encodeFrom ⟨0, 0⟩ 0 tokens #[] with
    | error e =>
        unfold encode at h
        rw [hfrom] at h
        cases h
    | ok out =>
        obtain ⟨data', hrelative⟩ := relative_of_encodeFrom hfrom
        rw [hencode hrelative] at h
        cases h
        exact hrelative
  · exact hencode

/-- Exactly the tokens in reading order are written. -/
theorem exists_encode_iff {tokens : List Token} :
    (∃ data, encode tokens = .ok data) ↔ tokens.Pairwise fun s t => s.le t = true := by
  simp only [encode_eq_ok_iff, exists_relative_iff]
  exact and_iff_right fun t _ => Position.zero_le t.position

/-- **An array is read as the tokens that it places.** -/
theorem decode_eq_ok_iff {tokens : List Token} {data : List UInt32} :
    decode data = .ok tokens ↔ Relative ⟨0, 0⟩ tokens data := by
  have hdecode {tokens : List Token} (h : Relative ⟨0, 0⟩ tokens data) :
      decode data = .ok tokens := by
    unfold decode
    rw [if_pos (by rw [h.length_eq]; exact Nat.mul_mod_right 5 _), h.decodeFrom_eq]
    simp [Except.map]
  constructor
  · intro h
    by_cases haligned : data.length % 5 = 0
    · cases hfrom : decodeFrom ⟨0, 0⟩ 0 data #[] with
      | error e =>
          unfold decode at h
          rw [if_pos haligned, hfrom] at h
          cases h
      | ok out =>
          obtain ⟨tokens', hrelative⟩ := relative_of_decodeFrom haligned hfrom
          rw [hdecode hrelative] at h
          cases h
          exact hrelative
    · unfold decode at h
      rw [if_neg haligned] at h
      cases h
  · exact hdecode

/-! ## The first token at fault

The index of an error is the least one at fault. It is found by going on to the rest when the first
token is not. -/

section

variable (fault : Nat → DeltaError) {P : Nat → Prop} {index : Nat} {e : DeltaError}

/-- The first index of some is zero, if that is one of them. -/
theorem first_iff_of_zero (h : P 0) :
    (∃ i, e = fault (index + i) ∧ IsLeast {i | P i} i) ↔ e = fault index := by
  constructor
  · rintro ⟨i, rfl, hi⟩
    rw [Nat.le_zero.1 (hi.2 h), Nat.add_zero]
  · intro he
    exact ⟨0, he, h, fun i _ => Nat.zero_le i⟩

/-- The first index of some is that behind zero, if zero is none of them. -/
theorem first_iff_of_not_zero (h : ¬ P 0) : (∃ i, e = fault (index + i) ∧ IsLeast {i | P i} i) ↔
    ∃ i, e = fault (index + 1 + i) ∧ IsLeast {i | P (i + 1)} i := by
  constructor
  · rintro ⟨i, rfl, hi, hleast⟩
    cases i with
    | zero => exact absurd hi h
    | succ i =>
        exact ⟨i, congrArg fault (Nat.add_right_comm index i 1), hi, fun j hj =>
          Nat.le_of_succ_le_succ (hleast hj)⟩
  · rintro ⟨i, rfl, hi, hleast⟩
    refine ⟨i + 1, congrArg fault (Nat.add_right_comm index 1 i), hi, fun j hj => ?_⟩
    cases j with
    | zero => exact absurd hj h
    | succ j => exact Nat.succ_le_succ (hleast hj)

end

/-- The position at an index is before the one that precedes it. -/
def FallsAt (positions : List Position) (index : Nat) : Prop :=
  0 < index ∧ ∃ p q, positions[index - 1]? = some p ∧ positions[index]? = some q ∧ p.le q = false

theorem fallsAt_one {p q : Position} {rest : List Position} :
    FallsAt (p :: q :: rest) 1 ↔ p.le q = false := by
  simp [FallsAt]

/-- Behind the first two, the positions of the rest are compared. -/
theorem fallsAt_cons {p : Position} {rest : List Position} {index : Nat} :
    FallsAt (p :: rest) (index + 2) ↔ FallsAt rest (index + 1) := by
  simp [FallsAt]

/-- Encoding fails exactly at the first token that is before the one it follows. The first follows
`before`, and indices start at `index`. -/
theorem encodeFrom_eq_error_iff {before : Position} {index : Nat} {tokens : List Token}
    {found : Array UInt32} {e : DeltaError} : encodeFrom before index tokens found = .error e ↔
      ∃ i, e = .outOfOrder (index + i) ∧
        IsLeast {i | FallsAt (before :: tokens.map Token.position) (i + 1)} i := by
  induction tokens generalizing before index found with
  | nil =>
      constructor
      · intro h
        cases h
      · rintro ⟨i, -, ⟨-, p, q, -, hq, -⟩, -⟩
        simp at hq
  | cons t rest ih =>
      rw [encodeFrom, List.map_cons]
      by_cases hle : before.le t.position = true
      · have hzero : ¬ FallsAt (before :: t.position :: rest.map Token.position) 1 := by
          rw [fallsAt_one, hle]
          exact Bool.noConfusion
        have hlater : (∃ i, e = .outOfOrder (index + i) ∧
            IsLeast {i | FallsAt (before :: t.position :: rest.map Token.position) (i + 1)} i) ↔
            _ :=
          first_iff_of_not_zero .outOfOrder hzero
        simp only [fallsAt_cons] at hlater
        rw [if_pos hle, ih, hlater]
      · have hzero : FallsAt (before :: t.position :: rest.map Token.position) 1 :=
          fallsAt_one.2 (Bool.not_eq_true _ ▸ hle)
        rw [if_neg hle, first_iff_of_zero .outOfOrder hzero, Except.error.injEq, eq_comm]

/-- The token at an index is at a place whose line or column is no word. -/
def OverflowsAt (places : List (Nat × Nat)) (index : Nat) : Prop :=
  ∃ place, places[index]? = some place ∧ ¬ InRange place

/-- Decoding fails exactly at the first token whose line or column is no word. Indices start at
`index`. -/
theorem decodeFrom_eq_error_iff {before : Position} {index : Nat} {data : List UInt32}
    {found : Array Token} {e : DeltaError} : decodeFrom before index data found = .error e ↔
      ∃ i, e = .overflow (index + i) ∧ IsLeast
      {i | OverflowsAt (places before.place data) i} i := by
  fun_induction decodeFrom before index data found with
  | case1 before index line start length type modifiers rest found p hmove ih =>
      rw [places, move?_eq_some_iff.1 hmove]
      -- the first token is in range, so the fault is in the rest
      have hzero : ¬ OverflowsAt (p.place :: places p.place rest) 0 := by
        rintro ⟨place, hplace, hrange⟩
        cases hplace
        exact hrange (inRange_place p)
      rw [ih, first_iff_of_not_zero .overflow hzero]
      rfl
  | case2 before index line start length type modifiers rest found hmove =>
      rw [places]
      have hzero : OverflowsAt (moved before.place line start ::
          places (moved before.place line start) rest) 0 :=
        ⟨_, rfl, move?_eq_none_iff.1 hmove⟩
      rw [first_iff_of_zero .overflow hzero, Except.error.injEq, eq_comm]
  | case3 data before index found hshort =>
      have hnone : places before.place data = [] := by
        unfold places
        split
        · exact absurd rfl (hshort _ _ _ _ _ _)
        · rfl
      rw [hnone]
      constructor
      · intro h
        cases h
      · rintro ⟨i, -, ⟨place, hplace, -⟩, -⟩
        cases hplace

/-! ### Errors of whole arrays

An array that does not consist of whole tokens is refused before anything is read of it. -/

/-- Tokens have no relative form exactly if one is before the one that precedes it. -/
theorem encode_eq_error_iff {tokens : List Token} {e : DeltaError} : encode tokens = .error e ↔
    ∃ i, e = .outOfOrder i ∧ IsLeast {i | FallsAt (tokens.map Token.position) i} i := by
  have hmap : encode tokens = .error e ↔ encodeFrom ⟨0, 0⟩ 0 tokens #[] = .error e := by
    unfold encode
    cases encodeFrom ⟨0, 0⟩ 0 tokens #[] with
    | ok out => simp [Except.map]
    | error e' => simp [Except.map]
  -- nothing precedes the first token, and the start of a text is not behind it
  have hshift : {i | FallsAt (⟨0, 0⟩ :: tokens.map Token.position) (i + 1)} =
      {i | FallsAt (tokens.map Token.position) i} := by
    ext i
    cases i with
    | succ i => exact fallsAt_cons
    | zero =>
        constructor
        · rintro ⟨-, p, q, hp, -, hle⟩
          cases hp
          rw [Position.zero_le] at hle
          cases hle
        · rintro ⟨hpos, -⟩
          exact absurd hpos (Nat.lt_irrefl 0)
  rw [hmap, encodeFrom_eq_error_iff, hshift]
  simp only [Nat.zero_add]

/-- An array has no tokens exactly if it has a part of one, or a sum is no word. -/
theorem decode_eq_error_iff {data : List UInt32} {e : DeltaError} : decode data = .error e ↔
    ¬ 5 ∣ data.length ∧ e = .misaligned data.length ∨
      5 ∣ data.length ∧ ∃ i, e = .overflow i ∧
      IsLeast {i | OverflowsAt (places (0, 0) data) i} i := by
  unfold decode
  rw [Nat.dvd_iff_mod_eq_zero]
  by_cases haligned : data.length % 5 = 0
  · have hmap : (decodeFrom ⟨0, 0⟩ 0 data #[]).map Array.toList = .error e ↔
        decodeFrom ⟨0, 0⟩ 0 data #[] = .error e := by
      cases decodeFrom ⟨0, 0⟩ 0 data #[] with
      | ok out => simp [Except.map]
      | error e' => simp [Except.map]
    rw [if_pos haligned, hmap, decodeFrom_eq_error_iff]
    simp only [haligned, Nat.zero_add, not_true_eq_false, false_and, true_and, false_or]
    rfl
  · rw [if_neg haligned]
    simp [haligned, eq_comm]

/-- Exactly the arrays of whole tokens whose sums are words are read. -/
theorem exists_decode_iff {data : List UInt32} : (∃ tokens, decode data = .ok tokens) ↔
    5 ∣ data.length ∧ ∀ place ∈ places (0, 0) data, InRange place := by
  constructor
  · rintro ⟨tokens, h⟩
    have hrelative := decode_eq_ok_iff.1 h
    exact ⟨⟨_, hrelative.length_eq⟩, hrelative.inRange⟩
  · rintro ⟨haligned, hrange⟩
    cases h : decode data with
    | ok tokens => exact ⟨tokens, rfl⟩
    | error e =>
        rcases decode_eq_error_iff.1 h with ⟨hnot, -⟩ | ⟨-, i, -, ⟨place, hplace, hout⟩, -⟩
        · exact absurd haligned hnot
        · exact absurd (hrange place (List.mem_of_getElem? hplace)) hout

/-- **The relative form is exact.** Writing tokens and reading an array undo each other, and the
words are the exact differences of positions. Tokens are written exactly if they are in reading
order, and otherwise the first one that is before its predecessor is named. An array is read exactly
if it has five words to a token and no line or column that they add up to goes beyond a word, and
otherwise its length, or the first token with such a sum, is named. -/
theorem relative_form_exact (tokens : List Token) (data : List UInt32) :
    (encode tokens = .ok data ↔ decode data = .ok tokens) ∧
    (encode tokens = .ok data ↔ Relative ⟨0, 0⟩ tokens data) ∧
    ((∃ words, encode tokens = .ok words) ↔ tokens.Pairwise fun s t => s.le t = true) ∧
    (∀ e, encode tokens = .error e ↔
      ∃ i, e = .outOfOrder i ∧ IsLeast {i | FallsAt (tokens.map Token.position) i} i) ∧
    ((∃ found, decode data = .ok found) ↔ 5 ∣ data.length ∧ ∀ place ∈ places (0, 0) data,
      InRange place) ∧
    ∀ e, decode data = .error e ↔
      ¬ 5 ∣ data.length ∧ e = .misaligned data.length ∨
      5 ∣ data.length ∧ ∃ i, e = .overflow i ∧
      IsLeast {i | OverflowsAt (places (0, 0) data) i} i := by
  refine ⟨encode_eq_ok_iff.trans decode_eq_ok_iff.symm, encode_eq_ok_iff, exists_encode_iff,
    fun _ => encode_eq_error_iff, exists_decode_iff, fun _ => decode_eq_error_iff⟩

end Deltas

end SharpTokens
