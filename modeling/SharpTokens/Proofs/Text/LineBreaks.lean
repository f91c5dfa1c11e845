import SharpTokens.Proofs.Text.Lookups

/-!
# Line breaks

The breaks of a text are its line feeds, its carriage returns, and both together where they stand in
this order (`lineBreaks`). Lines start at the start of the text and behind each break, so the line
of an offset is the number of breaks that end at or before it (`LineIndex.line_eq_countP`), wherever
in the text or behind it the offset is.

Positions keep the order of places (`LineIndex.position_lt`): what stands between two places is a
break or is wide.

Breaks are defined by going through the text once, without a look at lines. The starts of lines in
an index are then the ends of breaks, which gives the line of an offset by counting; no binary
search is left in the statement.
-/

namespace SharpTokens.Text

/-- The line breaks of a text whose first byte is at `offset`. A carriage return and a line feed
behind it are one. -/
def lineBreaks (offset : Nat) : List Char → List Span
  | [] => []
  | '\r' :: '\n' :: cs => ⟨offset, offset + 2⟩ :: lineBreaks (offset + 2) cs
  | c :: cs =>
    if c = '\n' ∨ c = '\r' then ⟨offset, offset + 1⟩ :: lineBreaks (offset + 1) cs
    else lineBreaks (offset + c.utf8Size) cs

namespace LineIndex

/-! ## Where lines start

One break ends each line but the last. -/

def starts (ix : LineIndex) : List Nat := ix.lines.toList.map (·.start)

/-- A line starts behind each break. -/
theorem starts_linesIn (offset : Nat) (text : List Char) :
    (linesIn offset text []).map (·.start) = (lineBreaks offset text).map (·.stop) := by
  fun_induction lineBreaks offset text with
  | case1 offset => rfl
  | case2 offset cs ih =>
      -- no line ends between the two
      have hfeed : linesIn offset ('\r' :: '\n' :: cs) [] =
          ⟨offset + 1 + 1, cs ++ []⟩ :: linesIn (offset + 1 + 1) cs [] := rfl
      rw [hfeed, List.map_cons, ih, List.map_cons]
  | case3 offset c cs hpair hbreak ih =>
      have hends : endsLine c (cs ++ []) = true := by
        rcases hbreak with rfl | rfl
        · rfl
        · cases cs with
          | nil => rfl
          | cons d cs => simpa [endsLine] using fun h => hpair cs rfl h
      have hsize : c.utf8Size = 1 := by
        rcases hbreak with rfl | rfl
        all_goals rfl
      rw [linesIn, hends, if_pos rfl, hsize, List.singleton_append, List.map_cons, ih,
        List.map_cons]
  | case4 offset c cs hpair hbreak ih =>
      rw [not_or] at hbreak
      have hends : endsLine c (cs ++ []) = false := by simp [endsLine, hbreak.1, hbreak.2]
      rw [linesIn, hends, if_neg Bool.false_ne_true, List.nil_append, ih]

/-- The first line starts with the text, and each further one behind a break. -/
theorem starts_ofText (text : List Char) :
    (ofText text).starts = 0 :: (lineBreaks 0 text).map (·.stop) := by
  have hlines := lines_ofText [] text
  rw [List.nil_append] at hlines
  rw [starts, hlines, ← starts_linesIn]
  rfl

/-- Lines start one after another. -/
theorem pairwise_linesIn (offset : Nat) (pre post : List Char) :
    (linesIn offset pre post).Pairwise fun l m => l.start < m.start := by
  induction pre generalizing offset with
  | nil => exact .nil
  | cons c pre ih =>
      rw [linesIn]
      split
      · exact List.pairwise_cons.2 ⟨fun l hl => (start_of_mem_linesIn hl).1, ih _⟩
      · exact ih _

/-- **Lines start one behind the other.** -/
theorem pairwise_starts (text : List Char) : (ofText text).starts.Pairwise (· < ·) := by
  have hlines := lines_ofText text []
  simp only [linesIn, List.append_nil] at hlines
  rw [starts, hlines, List.map_cons, List.pairwise_cons, List.pairwise_map]
  refine ⟨fun start hstart => ?_, pairwise_linesIn 0 text []⟩
  obtain ⟨l, hl, rfl⟩ := List.mem_map.1 hstart
  exact (start_of_mem_linesIn hl).1

/-! ## Which line an offset is on

Since starts ascend, the number of those at or before an offset tells the last of them. -/

/-- Of offsets in ascending order, the first ones are those up to a bound. -/
theorem le_iff_lt_countP {offsets : List Nat} (h : offsets.Pairwise (· < ·)) {i start bound : Nat}
    (hi : offsets[i]? = some start) : start ≤ bound ↔ i < offsets.countP (· ≤ bound) := by
  induction offsets generalizing i with
  | nil => simp at hi
  | cons first offsets ih =>
      rw [List.pairwise_cons] at h
      by_cases hfirst : first ≤ bound
      · rw [List.countP_cons_of_pos (by simpa using hfirst)]
        cases i with
        | zero =>
            cases hi
            exact ⟨fun _ => Nat.succ_pos _, fun _ => hfirst⟩
        | succ i => rw [ih h.2 hi, Nat.succ_lt_succ_iff]
      · have hnone : offsets.countP (· ≤ bound) = 0 := by
          rw [List.countP_eq_zero]
          intro other hother
          have := h.1 other hother
          simp only [decide_eq_true_eq]
          omega
        rw [List.countP_cons_of_neg (by simpa using hfirst), hnone]
        have hle : first ≤ start := by
          rcases List.mem_cons.1 (List.mem_of_getElem? hi) with rfl | hmem
          · exact Nat.le_refl _
          · exact Nat.le_of_lt (h.1 start hmem)
        omega

/-- The starts of an index are those of its lines. -/
theorem getElem?_starts (ix : LineIndex) {line : Nat} (h : line < ix.size) :
    ix.starts[line]? = some (ix.lineStart line) := by
  obtain ⟨l, hl⟩ : ∃ l, ix.lines.toList[line]? = some l := ⟨_, List.getElem?_eq_getElem h⟩
  rw [starts, List.getElem?_map, lineStart_eq, hl]
  rfl

/-- **The line of an offset is found among the starts:** it is the last of those that start at or
before it. -/
theorem line_add_one (text : List Char) (offset : Nat) :
    (ofText text).line offset + 1 = (ofText text).starts.countP (· ≤ offset) := by
  have hpos : 0 < (ofText text).size := Nat.lt_of_le_of_lt (Nat.zero_le _) (line_lt_size [] text)
  have hfirst : (ofText text).lineStart 0 ≤ offset := by
    have hzero := getElem?_starts _ hpos
    rw [starts_ofText, List.getElem?_cons_zero] at hzero
    rw [← Option.some.inj hzero]
    exact Nat.zero_le _
  obtain ⟨-, hlt, hstart, hnext⟩ := search_spec (ofText text) offset (ofText text).size 0
    (ofText text).size hpos
    (Nat.le_add_left _ _) hfirst (.inl rfl)
  rw [← line] at hlt hstart hnext
  have hreached := (le_iff_lt_countP (pairwise_starts text) (getElem?_starts _ hlt)).1 hstart
  by_cases hin : (ofText text).line offset + 1 < (ofText text).size
  · -- the next line starts behind the offset
    have hbehind := hnext.resolve_left (Nat.ne_of_lt hin)
    have hnot := mt (le_iff_lt_countP (pairwise_starts text) (getElem?_starts _ hin)).2
      (Nat.not_le.2 hbehind)
    omega
  · have hle : (ofText text).starts.countP (· ≤ offset) ≤ (ofText text).size := by
      refine Nat.le_trans List.countP_le_length ?_
      rw [starts, List.length_map]
      exact Nat.le_refl _
    omega

/-- **The line of an offset is the number of breaks that end at or before it.** -/
theorem line_eq_countP (text : List Char) (offset : Nat) :
    (ofText text).line offset = (lineBreaks 0 text).countP (·.stop ≤ offset) := by
  have h := line_add_one text offset
  rw [starts_ofText, List.countP_cons_of_pos (by simp), List.countP_map] at h
  exact Nat.succ.inj h

/-! ## Lines of a part

A part of a text goes over as many lines as breaks end in it. -/

/-- A line starts behind the first character at the earliest. -/
theorem start_of_mem_linesIn_cons {offset : Nat} {c : Char} {pre post : List Char} {l : Line}
    (h : l ∈ linesIn offset (c :: pre) post) : offset + c.utf8Size ≤ l.start := by
  rcases List.mem_append.1 h with hfirst | hrest
  · split at hfirst
    · exact Nat.le_of_eq (congrArg Line.start (List.mem_singleton.1 hfirst)).symm
    · cases hfirst
  · exact Nat.le_of_lt (start_of_mem_linesIn hrest).1

/-- All bytes of a character are on one line. -/
theorem line_within (pre : List Char) (c : Char) (post : List Char) {k : Nat}
    (hk : k < c.utf8Size) :
    (ofText (pre ++ c :: post)).line (byteSize pre + k) = (ofText (pre ++ c :: post)).line
      (byteSize pre) := by
  refine Nat.succ.inj ?_
  rw [Nat.succ_eq_add_one, line_add_one, Nat.succ_eq_add_one, line_add_one, starts, List.countP_map,
    List.countP_map]
  refine List.countP_congr fun l hl => ?_
  simp only [Function.comp_apply, decide_eq_true_eq]
  -- a line starts at or before the character, or behind all of its bytes
  rw [lines_ofText, List.cons_append, List.mem_cons, List.mem_append] at hl
  rcases hl with rfl | hl | hl
  · simp
  · have := (start_of_mem_linesIn hl).2
    omega
  · have := start_of_mem_linesIn_cons hl
    omega

/-- Without a line feed, each carriage return before the last character ends a line. -/
theorem length_linesIn (offset : Nat) {mid post : List Char} {c : Char} (h : '\n' ∉ mid ++ [c]) :
    (linesIn offset mid (c :: post)).length = mid.count '\r' := by
  induction mid generalizing offset with
  | nil => rfl
  | cons d mid ih =>
      rw [List.cons_append, List.mem_cons, not_or] at h
      have hends : endsLine d (mid ++ c :: post) = (d == '\r') := by
        have hnext : ((mid ++ c :: post).head? != some '\n') = true := by
          rw [bne_iff_ne]
          intro hfeed
          cases mid with
          | nil => exact h.2 (by simpa using (Option.some.inj hfeed).symm)
          | cons e mid => exact h.2 (by simp [Option.some.inj hfeed])
        rw [endsLine, beq_false_of_ne (Ne.symm h.1), hnext, Bool.false_or, Bool.and_true]
      rw [linesIn, List.length_append, ih _ h.2, hends, List.count_cons]
      split
      · exact Nat.add_comm _ _
      · exact Nat.zero_add _

/-- **The line at the last byte of a part without line feeds** is as many lines further on as there
are carriage returns before its last character. -/
theorem line_last_byte (pre post : List Char) {mid : List Char} {c : Char} (h : '\n' ∉ mid ++ [c]) :
    (ofText (pre ++ (mid ++ c :: post))).line (byteSize pre + byteSize (mid ++ [c]) - 1) =
      (ofText (pre ++ (mid ++ c :: post))).line (byteSize pre) + mid.count '\r' := by
  have hpos := c.utf8Size_pos
  have hlast : byteSize pre + byteSize (mid ++ [c]) - 1 = byteSize (pre ++ mid) +
      (c.utf8Size - 1) := by
    rw [byteSize_append, byteSize_append, byteSize_cons, byteSize_nil]
    omega
  have hwithin := line_within (pre ++ mid) c post (k := c.utf8Size - 1) (by omega)
  rw [line_eq, linesIn_append, List.length_append, length_linesIn _ h, List.append_assoc] at hwithin
  rw [hlast, hwithin, line_eq]

/-! ## The order of positions

Later places have later positions: a line further down, or a column further on. -/

/-- A text that is not empty moves a place on. -/
theorem placeAfter_lt (place : Nat × Nat) {mid : List Char} (post : List Char) (h : mid ≠ []) :
    Prod.Lex (· < ·) (· < ·) place (placeAfter place mid post) := by
  rcases placeAfter_cases place mid post with hless | heq
  · exact Prod.lex_def.2 (.inl hless)
  · have hwide := width_pos h
    rw [heq]
    exact Prod.lex_def.2 (.inr ⟨rfl, Nat.lt_add_of_pos_right hwide⟩)

/-- A position is a line and the width of a slice of it. -/
theorem place_slice {text : List Char} {offset : Nat} (hsize : byteSize text < UInt32.size)
    (h : IsBoundary text offset) :
    ∃ cs, slice? text ⟨(ofText text).lineStart ((ofText text).line offset), offset⟩ = some cs ∧
      ((ofText text).position offset).place = ((ofText text).line offset, width cs) := by
  obtain ⟨-, cs, hslice, hposition⟩ := counted_slice h
  refine ⟨cs, hslice, ?_⟩
  have hwidth : width cs < UInt32.size := by
    obtain ⟨front, back, htext, -⟩ := slice?_eq_some_iff.1 hslice
    have hle := width_le_byteSize cs
    rw [htext, byteSize_append, byteSize_append] at hsize
    omega
  have hline : (ofText text).line offset < UInt32.size := by
    obtain ⟨pre, post, rfl, rfl⟩ := h
    have hle := (placeAfter_le (0, 0) pre post 0 (Nat.le_refl _) (Nat.le_refl _)).1
    rw [byteSize_append] at hsize
    rw [line_place]
    omega
  rw [hposition, Position.place, saturate_toNat hline, saturate_toNat hwidth]

/-- **Later places have later positions.** -/
theorem position_lt {text : List Char} {a b : Nat} (hsize : byteSize text < UInt32.size)
    (ha : IsBoundary text a) (hb : IsBoundary text b) (hab : a < b) :
    Prod.Lex (· < ·) (· < ·) ((ofText text).position a).place ((ofText text).position b).place := by
  obtain ⟨pre, mid, post, rfl, rfl, rfl⟩ := ha.exists_between hb (Nat.le_of_lt hab)
  have hmid : mid ≠ [] := by
    rintro rfl
    rw [List.append_nil] at hab
    exact Nat.lt_irrefl _ hab
  have hplace' := place_position ((List.append_assoc pre mid post).symm ▸ hsize)
  rw [List.append_assoc, placeAfter_append] at hplace'
  rw [place_position hsize, hplace']
  exact placeAfter_lt _ post hmid

/-- **A line index is right and keeps the order of places.** In a text of less than `2 ^ 32` bytes,
lines start at the start of the text and behind each line break, one behind the other. The line of
an offset is the number of breaks that end at or before it. Between characters, the position of an
offset is its line and the width of the text from the start of the line to it; later offsets have
later positions, so no two have the same one. -/
theorem counts_line_breaks (text : List Char) (hsize : byteSize text < UInt32.size) :
    ((ofText text).starts = 0 :: (lineBreaks 0 text).map (·.stop) ∧
      (ofText text).starts.Pairwise (· < ·)) ∧
    (∀ offset, (ofText text).line offset = (lineBreaks 0 text).countP (·.stop ≤ offset)) ∧
    (∀ offset, IsBoundary text offset → ∃ cs,
      slice? text ⟨(ofText text).lineStart ((ofText text).line offset), offset⟩ = some cs ∧
        ((ofText text).position offset).place = ((ofText text).line offset, width cs)) ∧
    (∀ a b, IsBoundary text a → IsBoundary text b → a < b →
      Prod.Lex (· < ·) (· < ·) ((ofText text).position a).place ((ofText text).position b).place) ∧
    ∀ a b, IsBoundary text a → IsBoundary text b → (ofText text).position a = (ofText text).position
    b → a = b := by
  refine ⟨⟨starts_ofText text, pairwise_starts text⟩, line_eq_countP text, ?_, ?_, ?_⟩
  · exact fun offset hoffset => place_slice hsize hoffset
  · exact fun a b ha hb hab => position_lt hsize ha hb hab
  · intro a b ha hb heq
    have hirrefl : ∀ place : Nat × Nat, ¬ Prod.Lex (· < ·) (· < ·) place place := by
      intro place hlt
      rcases Prod.lex_def.1 hlt with hless | ⟨-, hless⟩
      all_goals exact Nat.lt_irrefl _ hless
    by_contra hne
    rcases Nat.lt_or_gt_of_ne hne with hlt | hlt
    · exact hirrefl _ (heq ▸ position_lt hsize ha hb hlt)
    · exact hirrefl _ (heq ▸ position_lt hsize hb ha hlt)

/-- Each kind of break, and a character of two units. On either side of the line feed behind a
carriage return the lines differ. -/
theorem counts_line_breaks_mixed :
    byteSize "Ä\r\n𝒳x\ry\n".toList < UInt32.size ∧
      (ofText "Ä\r\n𝒳x\ry\n".toList).starts = [0, 4, 10, 12] ∧
      (ofText "Ä\r\n𝒳x\ry\n".toList).line 3 = 0 ∧
      Prod.Lex (· < ·) (· < ·) ((ofText "Ä\r\n𝒳x\ry\n".toList).position 3).place
        ((ofText "Ä\r\n𝒳x\ry\n".toList).position 4).place := by
  obtain ⟨⟨hstarts, -⟩, hline, -, hlt, -⟩ :=
    counts_line_breaks "Ä\r\n𝒳x\ry\n".toList (by decide +kernel)
  refine ⟨by decide +kernel, ?_, ?_, ?_⟩
  · rw [hstarts]
    decide +kernel
  · rw [hline]
    decide +kernel
  · exact hlt 3 4 (by decide +kernel) (by decide +kernel) (by decide)

end LineIndex

end SharpTokens.Text
