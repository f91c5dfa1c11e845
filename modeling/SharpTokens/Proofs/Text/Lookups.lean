import Mathlib.Data.List.Induction
import SharpTokens.Proofs.Text.Slices

/-!
# Looking positions up

A position is counted over a part of the text: from the start of a line to the place asked for, or
from the place that was asked for last. Between the characters of a text that part is always a slice
of it (`LineIndex.counted_slice`, `Cursor.counted_slice`), and later places have later positions
(`LineIndex.position_mono`). So a cursor answers as the index does, whatever it was asked before
(`lookups_agree`).

Counting from a place that was asked for before needs that the text between the two is there, and
starts and ends with whole characters. That is what the statements about slices are for: nothing
outside the text is ever looked at, and no character is cut.
-/

namespace SharpTokens.Text

/-! ## Lines

Where a line starts, the text that the index keeps for it is what follows there. -/

namespace LineIndex

/-- A line that starts in a text goes on with the rest of it. -/
theorem rest_of_mem_linesIn {offset : Nat} {pre post : List Char} {l : Line}
    (h : l ∈ linesIn offset pre post) :
    ∃ front, pre ++ post = front ++ l.rest ∧ l.start = offset + byteSize front := by
  induction pre generalizing offset with
  | nil => cases h
  | cons c pre ih =>
      rcases List.mem_append.1 h with hfirst | hrest
      · split at hfirst
        · cases List.mem_singleton.1 hfirst
          exact ⟨[c], rfl, by simp⟩
        · cases hfirst
      · obtain ⟨front, heq, hstart⟩ := ih hrest
        refine ⟨c :: front, congrArg (c :: ·) heq, ?_⟩
        rw [hstart, byteSize_cons, Nat.add_assoc]

/-- A line of the index is an end of the text. -/
theorem rest_of_lt {text : List Char} {line : Nat} (h : line < (ofText text).size) :
    ∃ front, text = front ++ (ofText text).lineRest line ∧
      (ofText text).lineStart line = byteSize front := by
  have hlines := lines_ofText text []
  rw [List.append_nil] at hlines
  obtain ⟨l, hl⟩ : ∃ l, (ofText text).lines.toList[line]? = some l :=
    ⟨_, List.getElem?_eq_getElem h⟩
  rw [lineRest_eq, lineStart_eq, hl]
  have hmem := List.mem_of_getElem? hl
  rw [hlines] at hmem
  simp only [linesIn, List.append_nil, List.mem_cons] at hmem
  rcases hmem with rfl | hmem
  · exact ⟨[], rfl, rfl⟩
  · obtain ⟨front, heq, hstart⟩ := rest_of_mem_linesIn hmem
    rw [List.append_nil] at heq
    exact ⟨front, heq, by simpa using hstart⟩

/-- Each place is on some line of the index. -/
theorem line_lt_size (pre post : List Char) :
    (ofText (pre ++ post)).line (byteSize pre) < (ofText (pre ++ post)).size := by
  rw [line_eq]
  show _ < (ofText (pre ++ post)).lines.size
  rw [← Array.length_toList, lines_ofText, List.length_append, List.length_cons]
  omega

/-- **The column of a place is counted over a slice of the text**, from the start of its line, which
is one of the lines. -/
theorem counted_slice {text : List Char} {offset : Nat} (h : IsBoundary text offset) :
    (ofText text).line offset < (ofText text).size ∧
      ∃ cs, slice? text ⟨(ofText text).lineStart ((ofText text).line offset), offset⟩ = some cs ∧
        (ofText text).position offset = ⟨saturate ((ofText text).line offset),
          saturate (width cs)⟩ := by
  obtain ⟨pre, post, rfl, rfl⟩ := h
  have hline := line_lt_size pre post
  obtain ⟨gone, hrest, hsize, hplace⟩ := line_spec pre post
  obtain ⟨front, htext, hstart⟩ := rest_of_lt hline
  rw [hrest] at htext
  refine ⟨hline, gone, slice?_eq_some_iff.2 ⟨front, post, htext, ?_⟩, ?_⟩
  · rw [← hstart, hsize]
  · rw [position_eq, hplace]

/-- Later places have positions that are not earlier, as long as all lines have a number. -/
theorem position_mono {text : List Char} {a b : Nat} (hsize : (ofText text).size ≤ UInt32.size)
    (ha : IsBoundary text a) (hb : IsBoundary text b) (hab : a ≤ b) :
    ((ofText text).position a).le ((ofText text).position b) = true := by
  obtain ⟨pre, mid, post', rfl, rfl, rfl⟩ := ha.exists_between hb hab
  have hline : (placeAfter (0, 0) pre (mid ++ post')).1 < UInt32.size := by
    rw [← line_place]
    exact Nat.lt_of_lt_of_le (line_lt_size pre (mid ++ post')) hsize
  have hline' : (placeAfter (0, 0) (pre ++ mid) post').1 < UInt32.size := by
    rw [← line_place, List.append_assoc]
    refine Nat.lt_of_lt_of_le ?_ hsize
    rw [← List.append_assoc]
    exact line_lt_size (pre ++ mid) post'
  have hposition := position_eq (pre ++ mid) post'
  rw [List.append_assoc] at hposition
  rw [position_eq, hposition, Position.le_iff]
  rw [placeAfter_append] at hline' ⊢
  rcases placeAfter_cases (placeAfter (0, 0) pre (mid ++ post')) mid post' with hless | heq
  · left
    show (saturate _).toNat < (saturate _).toNat
    rwa [saturate_toNat hline, saturate_toNat hline']
  · right
    rw [heq]
    exact ⟨rfl, saturate_mono (Nat.le_add_right _ _)⟩

end LineIndex

/-! ## Cursors

A cursor counts on from where it is, or from the start of the line if the place is before or on
another one. -/

namespace Cursor

/-- Where a cursor counts on from to come to an offset. -/
def base (c : Cursor) (offset : Nat) : Cursor :=
  if c.index.line offset ≠ c.line ∨ offset < c.offset then atLine c.index
    (c.index.line offset) else c

/-- The cursor after some offsets were looked up one after another. -/
def after (ix : LineIndex) (offsets : List Nat) : Cursor :=
  offsets.foldl (fun c o => (c.position o).2) (start ix)

/-- After looking up boundaries, the cursor is at a place of the text. -/
theorem after_at {text : List Char} {offsets : List Nat} (h : AreBoundaries text offsets) :
    ∃ pre post, text = pre ++ post ∧ (after (LineIndex.ofText text) offsets).At pre post := by
  induction offsets using List.reverseRecOn with
  | nil => exact ⟨[], text, rfl, start_at text⟩
  | append_singleton offsets offset ih =>
      obtain ⟨pre', post', htext', hc⟩ := ih fun o ho => h o (List.mem_append_left _ ho)
      obtain ⟨pre, post, htext, rfl⟩ := h offset (by simp)
      refine ⟨pre, post, htext, ?_⟩
      rw [after, List.foldl_append]
      exact (position_at hc htext' htext).2

/-- What a cursor counts over to come to a place is a slice of the text, and the text that it knows
starts with it. -/
theorem At.base_slice {c : Cursor} {text pre post pre' post' : List Char} (hc : c.At pre' post')
    (htext' : text = pre' ++ post') (htext : text = pre ++ post) :
    ∃ cs, slice? text ⟨(c.base (byteSize pre)).offset, byteSize pre⟩ = some cs ∧
      (c.base (byteSize pre)).rest = cs ++ post := by
  unfold base
  split
  · -- the line is counted from its start
    rw [hc.index, ← htext', htext]
    obtain ⟨gone, hrest, hsize, -⟩ := LineIndex.line_spec pre post
    obtain ⟨front, hfront, hstart⟩ := LineIndex.rest_of_lt (LineIndex.line_lt_size pre post)
    rw [hrest] at hfront
    have hstop : byteSize pre = byteSize front + byteSize gone := by omega
    refine ⟨gone, slice?_eq_some_iff.2 ⟨front, post, hfront, ?_⟩, hrest⟩
    rw [← hstop]
    exact congrArg (Span.mk · (byteSize pre)) hstart
  · rename_i hsame
    rw [not_or, Nat.not_lt, hc.offset] at hsame
    obtain ⟨mid, rfl⟩ := isPrefix_of_byteSize_le ⟨post, htext.symm⟩ ⟨post', htext'.symm⟩ hsame.2
    rw [htext, List.append_assoc] at htext' ⊢
    refine ⟨mid, slice?_eq_some_iff.2 ⟨pre', post, rfl, ?_⟩, ?_⟩
    · rw [hc.offset, byteSize_append]
    · rw [hc.rest, List.append_cancel_left htext']

/-- **A cursor counts over slices of the text**, whichever places were looked up before. -/
theorem counted_slice {text : List Char} {offsets : List Nat} {offset : Nat}
    (h : AreBoundaries text offsets) (hoffset : IsBoundary text offset) :
    ∃ cs, slice? text ⟨((after (LineIndex.ofText text) offsets).base offset).offset, offset⟩ =
      some cs := by
  obtain ⟨pre', post', htext', hc⟩ := after_at h
  obtain ⟨pre, post, htext, rfl⟩ := hoffset
  obtain ⟨cs, hslice, -⟩ := hc.base_slice htext' htext
  exact ⟨cs, hslice⟩

/-- The column moves on by the width of what is counted over. -/
theorem At.column_position {c : Cursor} {text pre post pre' post' cs : List Char}
    (hc : c.At pre' post') (htext' : text = pre' ++ post') (htext : text = pre ++ post)
    (hslice : slice? text ⟨(c.base (byteSize pre)).offset, byteSize pre⟩ = some cs) :
    (c.position (byteSize pre)).2.column = (c.base (byteSize pre)).column + width cs := by
  obtain ⟨ds, hslice', hrest⟩ := hc.base_slice htext' htext
  obtain rfl : ds = cs := Option.some.inj (hslice'.symm.trans hslice)
  obtain ⟨front, -, -, hspan⟩ := slice?_eq_some_iff.1 hslice
  have hsize : byteSize pre - (c.base (byteSize pre)).offset = byteSize ds := by
    rw [Span.mk.injEq] at hspan
    omega
  show (Text.advance (byteSize pre - (c.base (byteSize pre)).offset) (c.base (byteSize pre)).column
    (c.base (byteSize pre)).rest).1 = _
  rw [hsize, hrest, advance_append]

end Cursor

/-! ## Widths by bytes

A text in ASCII is as wide as it has bytes, and need not be gone through. -/

theorem units_of_ascii {c : Char} (h : c.toNat < 0x80) : units c = 1 ∧ c.utf8Size = 1 := by
  constructor
  · exact if_pos (by omega)
  · exact if_pos (show c.val.toNat ≤ 0x7F from Nat.le_of_lt_succ h)

/-- The width of a text, which is taken from its bytes where all of its characters are in ASCII. -/
def quickWidth (cs : List Char) : Nat := if cs.all (·.toNat < 0x80) then byteSize cs else width cs

/-- The shortcut gives the width. -/
theorem quickWidth_eq (cs : List Char) : quickWidth cs = width cs := by
  unfold quickWidth
  split
  · next h =>
    induction cs with
    | nil => rfl
    | cons c cs ih =>
        rw [List.all_cons, Bool.and_eq_true, decide_eq_true_eq] at h
        obtain ⟨hunits, hsize⟩ := units_of_ascii h.1
        rw [byteSize_cons, width_cons, hunits, hsize, ih h.2]
  · rfl

/-- **A cursor answers as the index does.** Offsets between characters are looked up one after
another, in any order and any of them several times. For each of them the answer is the position
that the index gives it, and the column that is kept for the next one comes from measuring the slice
between the place counted on from and the offset. -/
theorem lookups_agree {text : List Char} {offsets : List Nat} (h : AreBoundaries text offsets) :
    (positions (LineIndex.ofText text) offsets).toList =
      offsets.map (LineIndex.ofText text).position ∧
      ∀ asked offset later, offsets = asked ++ offset :: later →
        ((Cursor.after (LineIndex.ofText text) asked).position offset).1 =
        (LineIndex.ofText text).position offset ∧
        ∃ cs, slice? text ⟨((Cursor.after (LineIndex.ofText text) asked).base offset).offset,
          offset⟩ = some cs ∧
          ((Cursor.after (LineIndex.ofText text) asked).position offset).2.column =
            ((Cursor.after (LineIndex.ofText text) asked).base offset).column + quickWidth cs := by
  refine ⟨positions_eq h, ?_⟩
  rintro asked offset later rfl
  have hasked : AreBoundaries text asked := fun o ho => h o (List.mem_append_left _ ho)
  have hoffset : IsBoundary text offset := h offset (by simp)
  obtain ⟨cs, hslice⟩ := Cursor.counted_slice hasked hoffset
  obtain ⟨pre', post', htext', hc⟩ := Cursor.after_at hasked
  obtain ⟨pre, post, htext, rfl⟩ := hoffset
  refine ⟨(Cursor.position_at hc htext' htext).1, cs, hslice, ?_⟩
  rw [quickWidth_eq]
  exact hc.column_position htext' htext hslice

/-- Among the offsets are the place between a carriage return and its line feed, starts of lines,
the end of the text, places before the one asked for last, and one that is asked for again. -/
theorem lookups_agree_back :
    AreBoundaries "Ä\r\n𝒳x\ry\n".toList [3, 12, 8, 8, 4, 0, 10, 3] ∧
      (positions (LineIndex.ofText "Ä\r\n𝒳x\ry\n".toList) [3, 12, 8, 8, 4, 0, 10, 3]).toList =
        [3, 12, 8, 8, 4, 0, 10, 3].map (LineIndex.ofText "Ä\r\n𝒳x\ry\n".toList).position := by
  have h : AreBoundaries "Ä\r\n𝒳x\ry\n".toList [3, 12, 8, 8, 4, 0, 10, 3] := by decide +kernel
  exact ⟨h, (lookups_agree h).1⟩

end SharpTokens.Text
