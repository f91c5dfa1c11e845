import SharpTokens.Proofs.Text.Places

/-!
# Slices

Spans are counted in bytes, so not every span of a text is a part of it: a part starts and ends
between two characters and lies in the text. `slice?` gives the part that a span is, if it is one,
and `slice?_eq_some_iff` says which division of the text that is.

A boundary is an offset at which a text can be divided. Slices are found by dividing twice, and
everything that is cut out of a text further on is shown to be one.
-/

namespace SharpTokens.Text

/-- An offset between two characters of a text, or at one of its ends. -/
def IsBoundary (text : List Char) (offset : Nat) : Prop :=
  ∃ pre post, text = pre ++ post ∧ offset = byteSize pre

/-- The first `n` bytes of a text and what follows them, if they end with a character. -/
def splitBytes? : (n : Nat) → List Char → Option (List Char × List Char)
  | 0, cs => some ([], cs)
  | _ + 1, [] => none
  | n + 1, c :: cs =>
    if c.utf8Size ≤ n + 1 then (splitBytes? (n + 1 - c.utf8Size) cs).map fun (pre, post) =>
      (c :: pre, post)
    else none

/-- The part of a text that a span is, if it is one. -/
def slice? (text : List Char) (s : Span) : Option (List Char) :=
  if s.start ≤ s.stop then
    (splitBytes? s.start text).bind fun (_, rest) => (splitBytes? (s.stop - s.start) rest).map (·.1)
  else none

theorem splitBytes?_append (pre post : List Char) :
    splitBytes? (byteSize pre) (pre ++ post) = some (pre, post) := by
  induction pre with
  | nil => cases post <;> rfl
  | cons c pre ih =>
      obtain ⟨n, hn⟩ := Nat.exists_eq_succ_of_ne_zero (Nat.ne_of_gt c.utf8Size_pos)
      have hsize : byteSize (c :: pre) = (n + byteSize pre) + 1 := by
        rw [byteSize_cons, hn]
        omega
      rw [hsize, List.cons_append, splitBytes?, if_pos (by omega)]
      rw [show n + byteSize pre + 1 - c.utf8Size = byteSize pre by omega, ih]
      rfl

/-- A division gives back the text. -/
theorem eq_of_splitBytes? {n : Nat} {cs pre post : List Char}
    (h : splitBytes? n cs = some (pre, post)) :
    cs = pre ++ post ∧ n = byteSize pre := by
  fun_induction splitBytes? n cs generalizing pre with
  | case1 cs =>
      cases h
      exact ⟨rfl, rfl⟩
  | case2 n => cases h
  | case3 n c cs hle ih =>
      obtain ⟨⟨pre', post'⟩, hsplit, heq⟩ := Option.map_eq_some_iff.1 h
      cases heq
      obtain ⟨rfl, hsize⟩ := ih hsplit
      refine ⟨rfl, ?_⟩
      rw [byteSize_cons, ← hsize]
      omega
  | case4 n c cs hlt => cases h

/-- A text can be divided at its boundaries and nowhere else. -/
theorem isBoundary_iff {text : List Char} {offset : Nat} :
    IsBoundary text offset ↔ (splitBytes? offset text).isSome = true := by
  constructor
  · rintro ⟨pre, post, rfl, rfl⟩
    rw [splitBytes?_append]
    rfl
  · intro h
    obtain ⟨⟨pre, post⟩, hsplit⟩ := Option.isSome_iff_exists.1 h
    exact ⟨pre, post, eq_of_splitBytes? hsplit⟩

instance (text : List Char) (offset : Nat) : Decidable (IsBoundary text offset) :=
  decidable_of_iff _ isBoundary_iff.symm

instance (text : List Char) (offsets : List Nat) : Decidable (AreBoundaries text offsets) :=
  inferInstanceAs (Decidable (∀ offset ∈ offsets, IsBoundary text offset))

/-- Two places divide a text into three parts. -/
theorem IsBoundary.exists_between {text : List Char} {a b : Nat} (ha : IsBoundary text a)
    (hb : IsBoundary text b) (hab : a ≤ b) :
    ∃ pre mid post, text = pre ++ (mid ++ post) ∧ a = byteSize pre ∧ b = byteSize (pre ++ mid) := by
  obtain ⟨pre, post, rfl, rfl⟩ := ha
  obtain ⟨pre', post', htext, rfl⟩ := hb
  obtain ⟨mid, rfl⟩ := isPrefix_of_byteSize_le ⟨post', htext.symm⟩ ⟨post, rfl⟩ hab
  rw [List.append_assoc] at htext
  exact ⟨pre, mid, post', htext, rfl, rfl⟩

/-- **A slice is the middle of a division of the text, at its offsets.** -/
theorem slice?_eq_some_iff {text cs : List Char} {s : Span} :
    slice? text s = some cs ↔
      ∃ pre post, text = pre ++ (cs ++ post) ∧ s = ⟨byteSize pre, byteSize pre + byteSize cs⟩ := by
  obtain ⟨start, stop⟩ := s
  rw [slice?]
  constructor
  · intro h
    split at h
    · rename_i hle
      obtain ⟨⟨pre, rest⟩, hpre, hrest⟩ := Option.bind_eq_some_iff.1 h
      obtain ⟨⟨mid, post⟩, hmid, rfl⟩ := Option.map_eq_some_iff.1 hrest
      obtain ⟨rfl, hstart⟩ := eq_of_splitBytes? hpre
      obtain ⟨rfl, hstop⟩ := eq_of_splitBytes? hmid
      refine ⟨pre, post, rfl, ?_⟩
      show Span.mk start stop = ⟨byteSize pre, byteSize pre + byteSize mid⟩
      rw [← hstart, ← hstop, show start + (stop - start) = stop from Nat.add_sub_cancel' hle]
    · cases h
  · rintro ⟨pre, post, rfl, hspan⟩
    obtain ⟨rfl, rfl⟩ := Span.mk.inj hspan
    rw [if_pos (Nat.le_add_right _ _), splitBytes?_append, Option.bind_some,
      Nat.add_sub_cancel_left]
    show (splitBytes? (byteSize cs) (cs ++ post)).map (·.1) = some cs
    rw [splitBytes?_append]
    rfl

variable {text cs : List Char} {s : Span}

/-- A slice lies in its text, between characters. -/
theorem bounds_of_slice? (h : slice? text s = some cs) :
    s.start ≤ s.stop ∧ s.stop ≤ byteSize text ∧ IsBoundary text s.start ∧
      IsBoundary text s.stop := by
  obtain ⟨pre, post, rfl, rfl⟩ := slice?_eq_some_iff.1 h
  refine ⟨Nat.le_add_right _ _, ?_, ⟨pre, cs ++ post, rfl, rfl⟩, ⟨pre ++ cs, post, ?_, ?_⟩⟩
  · show byteSize pre + byteSize cs ≤ byteSize (pre ++ (cs ++ post))
    rw [byteSize_append, byteSize_append]
    omega
  · rw [List.append_assoc]
  · rw [byteSize_append]

/-- An empty span at a boundary is the empty slice. -/
theorem slice?_point {offset : Nat} (h : IsBoundary text offset) :
    slice? text (.point offset) = some [] := by
  obtain ⟨pre, post, rfl, rfl⟩ := h
  exact slice?_eq_some_iff.2 ⟨pre, post, rfl, rfl⟩

/-- The text before a boundary is a slice. -/
theorem slice?_front {offset : Nat} (h : IsBoundary text offset) :
    ∃ front, slice? text ⟨0, offset⟩ = some front := by
  obtain ⟨pre, post, rfl, rfl⟩ := h
  exact ⟨pre, slice?_eq_some_iff.2 ⟨[], post, rfl, by simp⟩⟩

/-- A part of a slice is a slice inside it. -/
theorem slice?_of_isInfix {c : List Char} (h : slice? text s = some cs) (hc : c <:+: cs) :
    ∃ t, s.start ≤ t.start ∧ t.stop ≤ s.stop ∧ slice? text t = some c := by
  obtain ⟨pre, post, rfl, rfl⟩ := slice?_eq_some_iff.1 h
  obtain ⟨front, back, rfl⟩ := hc
  refine ⟨⟨byteSize (pre ++ front), byteSize (pre ++ front) + byteSize c⟩, ?_, ?_, ?_⟩
  · simp
  · simp only [byteSize_append]
    omega
  · exact slice?_eq_some_iff.2 ⟨pre ++ front, back ++ post, by simp, rfl⟩

/-- An end of a slice is a slice. -/
theorem slice?_of_isSuffix {rest : List Char} (h : slice? text s = some cs) (hrest : rest <:+ cs) :
    slice? text ⟨s.stop - byteSize rest, s.stop⟩ = some rest := by
  obtain ⟨pre, post, rfl, rfl⟩ := slice?_eq_some_iff.1 h
  obtain ⟨front, rfl⟩ := hrest
  refine slice?_eq_some_iff.2 ⟨pre ++ front, post, by simp, ?_⟩
  simp only [byteSize_append, Span.mk.injEq]
  omega

end SharpTokens.Text
