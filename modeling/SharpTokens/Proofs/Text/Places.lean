import SharpTokens.Text.LineIndex

/-!
# Places in a text, counted

A place in a text is a division of it into what stands before and what follows. This module counts
the line and the column of a place straight from the text before it (`placeAfter`) and shows that a
line index and a cursor give the same answer (`LineIndex.position_eq`, `positions_eq`).

Counting is what the order of positions follows from: whatever stands between two places either ends
a line or moves the column on by its width (`placeAfter_cases`).

A line index halves the lines until one is left, and a cursor counts on from the last place. Both
are compared with counting from the start of the text, which is the definition that a reader would
expect. Numbers in positions are words that saturate, so the comparison is made with numbers that
have no bound, and then cut.
-/

namespace SharpTokens.Text

/-! ## Measures

A text has a width in code units and a length in bytes. Both are sums over its characters, and the
width is never more than the length. -/

/-- A sum that starts at `n` is `n` more. -/
theorem foldl_add_eq (f : Char → Nat) (cs : List Char) (n : Nat) :
    cs.foldl (fun n c => n + f c) n = n + cs.foldl (fun n c => n + f c) 0 := by
  induction cs generalizing n with
  | nil => rfl
  | cons c cs ih =>
      simp only [List.foldl_cons]
      rw [ih (n + f c), ih (0 + f c)]
      omega

@[simp] theorem width_nil : width [] = 0 := rfl

@[simp] theorem byteSize_nil : byteSize [] = 0 := rfl

@[simp] theorem width_cons (c : Char) (cs : List Char) : width (c :: cs) = units c + width cs := by
  show cs.foldl _ (0 + units c) = _
  rw [foldl_add_eq, Nat.zero_add]
  rfl

@[simp] theorem byteSize_cons (c : Char) (cs : List Char) :
    byteSize (c :: cs) = c.utf8Size + byteSize cs := by
  show cs.foldl _ (0 + c.utf8Size) = _
  rw [foldl_add_eq, Nat.zero_add]
  rfl

@[simp] theorem width_append (cs ds : List Char) : width (cs ++ ds) = width cs + width ds := by
  induction cs with
  | nil => simp
  | cons c cs ih => simp [ih, Nat.add_assoc]

@[simp] theorem byteSize_append (cs ds : List Char) :
    byteSize (cs ++ ds) = byteSize cs + byteSize ds := by
  induction cs with
  | nil => simp
  | cons c cs ih => simp [ih, Nat.add_assoc]

/-- The length of a text is the number of its bytes. -/
theorem byteSize_toList (s : String) : byteSize s.toList = s.utf8ByteSize := by
  have h : ∀ cs : List Char, cs.utf8Encode.size = byteSize cs := by
    intro cs
    induction cs with
    | nil => rfl
    | cons c cs ih =>
        rw [List.utf8Encode_cons, ByteArray.size_append, ih, byteSize_cons,
          List.utf8Encode_singleton, List.size_toByteArray, String.length_utf8EncodeChar]
  rw [← h, ← String.toByteArray_ofList, String.ofList_toList]
  rfl

theorem units_pos (c : Char) : 0 < units c := by
  unfold units
  split <;> omega

/-- A character has at most as many code units as bytes. -/
theorem units_le_utf8Size (c : Char) : units c ≤ c.utf8Size := by
  have hpos := c.utf8Size_pos
  unfold units
  split
  · omega
  · rename_i h
    -- outside the basic plane a character has four bytes
    have hbig : ¬ c.val ≤ 0xFFFF := by
      intro hle
      exact h (Nat.lt_succ_of_le hle)
    have h7F : ¬ c.val ≤ 0x7F := fun hle => hbig (UInt32.le_trans hle (by decide))
    have h7FF : ¬ c.val ≤ 0x7FF := fun hle => hbig (UInt32.le_trans hle (by decide))
    have hsize : c.utf8Size = 4 := by simp [Char.utf8Size, hbig, h7F, h7FF]
    omega

theorem width_le_byteSize (cs : List Char) : width cs ≤ byteSize cs := by
  induction cs with
  | nil => simp
  | cons c cs ih =>
      have := units_le_utf8Size c
      simp only [width_cons, byteSize_cons]
      omega

theorem width_pos {cs : List Char} (h : cs ≠ []) : 0 < width cs := by
  obtain ⟨c, cs, rfl⟩ := List.exists_cons_of_ne_nil h
  have := units_pos c
  simp only [width_cons]
  omega

theorem byteSize_pos {cs : List Char} (h : cs ≠ []) : 0 < byteSize cs :=
  Nat.lt_of_lt_of_le (width_pos h) (width_le_byteSize cs)

/-- Of two texts that start another one, the one with no more bytes starts the other. -/
theorem isPrefix_of_byteSize_le {pre pre' text : List Char} (h : pre <+: text) (h' : pre' <+: text)
    (hle : byteSize pre' ≤ byteSize pre) : pre' <+: pre := by
  rcases List.prefix_or_prefix_of_prefix h h' with hp | hp
  · obtain ⟨mid, rfl⟩ := hp
    cases mid with
    | nil => simp
    | cons c mid =>
        have := byteSize_pos (List.cons_ne_nil c mid)
        rw [byteSize_append] at hle
        omega
  · exact hp

/-- Small numbers stay as they are. -/
theorem saturate_toNat {n : Nat} (h : n < UInt32.size) : (saturate n).toNat = n := by
  simp only [saturate, h, if_true]
  exact Nat.mod_eq_of_lt h

/-- Saturating keeps the order. -/
theorem saturate_mono {m n : Nat} (h : m ≤ n) : (saturate m).toNat ≤ (saturate n).toNat := by
  by_cases hn : n < UInt32.size
  · rwa [saturate_toNat hn, saturate_toNat (Nat.lt_of_le_of_lt h hn)]
  · have hlargest : (saturate n).toNat = UInt32.size - 1 := by
      rw [saturate, if_neg hn]
      rfl
    rw [hlargest]
    exact Nat.le_sub_one_of_lt (saturate m).toNat_lt

/-- Passing over a text counts its width. -/
@[simp] theorem advance_append (pre post : List Char) (count : Nat) :
    advance (byteSize pre) count (pre ++ post) = (count + width pre, post) := by
  induction pre generalizing count with
  | nil => cases post <;> simp [advance]
  | cons c pre ih =>
      have hne : ¬ c.utf8Size + byteSize pre = 0 := by
        have := c.utf8Size_pos
        omega
      simp only [byteSize_cons, List.cons_append, advance, hne, if_false,
        Nat.add_sub_cancel_left, ih, width_cons, Nat.add_assoc]

/-! ## Counting lines and columns

The text that follows matters in one case: a carriage return ends a line unless a line feed follows,
which then does. -/

/-- The line and the column reached from those in `place` by going through `pre`, when `post`
follows. -/
def placeAfter (place : Nat × Nat) : (pre post : List Char) → Nat × Nat
  | [], _ => place
  | c :: pre, post =>
    placeAfter (if endsLine c (pre ++ post) then (place.1 + 1, 0)
      else (place.1, place.2 + units c)) pre post

/-- Counting through a text and then through another. -/
theorem placeAfter_append (place : Nat × Nat) (pre mid post : List Char) :
    placeAfter place (pre ++ mid) post = placeAfter (placeAfter place pre (mid ++ post))
      mid post := by
  induction pre generalizing place with
  | nil => rfl
  | cons c pre ih => simp only [List.cons_append, placeAfter, List.append_assoc, ih]

/-- What is gone through ends a line, or moves the column on by its width. -/
theorem placeAfter_cases (place : Nat × Nat) (pre post : List Char) :
    place.1 < (placeAfter place pre post).1 ∨
      placeAfter place pre post = (place.1, place.2 + width pre) := by
  induction pre generalizing place with
  | nil => exact Or.inr rfl
  | cons c pre ih =>
      simp only [placeAfter]
      split
      · rcases ih (place.1 + 1, 0) with h | h
        · left
          simp only at h
          omega
        · left
          rw [h]
          exact Nat.lt_succ_self _
      · rcases ih (place.1, place.2 + units c) with h | h
        · exact Or.inl h
        · right
          rw [h, width_cons, Nat.add_assoc]

/-- Lines and columns are counted by characters, so neither passes the number of bytes. -/
theorem placeAfter_le (place : Nat × Nat) (pre post : List Char) (n : Nat)
    (hline : place.1 ≤ n) (hcolumn : place.2 ≤ n) :
    (placeAfter place pre post).1 ≤ n + byteSize pre ∧
      (placeAfter place pre post).2 ≤ n + byteSize pre := by
  induction pre generalizing place n with
  | nil => exact ⟨hline, hcolumn⟩
  | cons c pre ih =>
      have hunits := units_le_utf8Size c
      have hpos := c.utf8Size_pos
      simp only [placeAfter, byteSize_cons, ← Nat.add_assoc]
      split
      · exact ih (place.1 + 1, 0) (n + c.utf8Size) (show place.1 + 1 ≤ _ by omega) (Nat.zero_le _)
      · exact ih (place.1, place.2 + units c) (n + c.utf8Size) (show place.1 ≤ _ by omega)
          (show place.2 + units c ≤ _ by omega)

/-! ## The lines of an index

The loop gathers lines at the end of an array. `linesIn` says which it adds. -/

namespace LineIndex

/-- The lines that start in `pre`, whose first byte is at `offset`, when `post` follows. -/
def linesIn (offset : Nat) : (pre post : List Char) → List Line
  | [], _ => []
  | c :: pre, post =>
    (if endsLine c (pre ++ post) then [⟨offset + c.utf8Size, pre ++ post⟩] else [])
      ++ linesIn (offset + c.utf8Size) pre post

/-- The lines found before stay in front. -/
theorem collect_toList (offset : Nat) (text : List Char) (found : Array Line) :
    (collect offset text found).toList = found.toList ++ linesIn offset text [] := by
  induction text generalizing offset found with
  | nil => simp [collect, linesIn]
  | cons c cs ih =>
      simp only [collect, linesIn, ih, List.append_nil]
      split <;> simp

/-- The lines of two parts, where the first sees what follows. -/
theorem linesIn_append (offset : Nat) (pre mid post : List Char) :
    linesIn offset (pre ++ mid) post
      = linesIn offset pre (mid ++ post) ++ linesIn (offset + byteSize pre) mid post := by
  induction pre generalizing offset with
  | nil => simp [linesIn]
  | cons c pre ih =>
      simp only [List.cons_append, linesIn, List.append_assoc, ih, byteSize_cons, Nat.add_assoc]

/-- Lines start after their break, in order. -/
theorem start_of_mem_linesIn {offset : Nat} {pre post : List Char} {l : Line}
    (h : l ∈ linesIn offset pre post) : offset < l.start ∧ l.start ≤ offset + byteSize pre := by
  induction pre generalizing offset with
  | nil => simp [linesIn] at h
  | cons c pre ih =>
      have hpos := c.utf8Size_pos
      simp only [linesIn, List.mem_append] at h
      simp only [byteSize_cons]
      rcases h with h | h
      · split at h
        · simp only [List.mem_singleton] at h
          subst h
          show offset < offset + c.utf8Size ∧ offset + c.utf8Size ≤ _
          omega
        · simp at h
      · have := ih h
        omega

/-- The line at a place, given the line `l` at the start of `pre` and what was gone through of it:
how many lines start in `pre`, and what there is of the last one. -/
theorem last_linesIn (l : Line) (gone pre post : List Char) (count : Nat)
    (hrest : l.rest = gone ++ (pre ++ post)) :
    ∃ gone',
      ((l :: linesIn (l.start + byteSize gone) pre post).getLast (by simp)).rest = gone' ++ post ∧
      ((l :: linesIn (l.start + byteSize gone) pre post).getLast (by simp)).start + byteSize gone'
        = l.start + byteSize gone + byteSize pre ∧
      placeAfter (count, width gone) pre post
        = (count + (linesIn (l.start + byteSize gone) pre post).length, width gone') := by
  induction pre generalizing l gone count with
  | nil =>
      exact ⟨gone, by simpa [linesIn] using hrest, by simp [linesIn], by simp [linesIn, placeAfter]⟩
  | cons c pre ih =>
      simp only [linesIn, placeAfter]
      split
      · -- a line ends here, and the next one starts with nothing gone of it
        obtain ⟨gone', h₁, h₂, h₃⟩ :=
          ih ⟨l.start + byteSize gone + c.utf8Size, pre ++ post⟩ [] (count + 1) rfl
        simp only [byteSize_nil, Nat.add_zero, width_nil] at h₁ h₂ h₃
        refine ⟨gone', ?_, ?_, ?_⟩
        · simpa [List.getLast_cons] using h₁
        · simp only [List.singleton_append, byteSize_cons]
          rw [List.getLast_cons (by simp), h₂]
          omega
        · rw [h₃]
          simp only [List.singleton_append, List.length_cons]
          congr 1
          omega
      · obtain ⟨gone', h₁, h₂, h₃⟩ := ih l (gone ++ [c]) count (by simpa using hrest)
        simp only [byteSize_append, byteSize_cons, byteSize_nil, Nat.add_zero,
          width_append, width_cons, width_nil, ← Nat.add_assoc] at h₁ h₂ h₃
        refine ⟨gone', ?_, ?_, ?_⟩
        · simpa using h₁
        · simp only [List.nil_append, byteSize_cons, ← Nat.add_assoc]
          exact h₂
        · simpa using h₃

/-- The lines of a text that is divided into `pre` and `post`: those that start in `pre` or before
it, and those that start in `post`. -/
theorem lines_ofText (pre post : List Char) :
    (ofText (pre ++ post)).lines.toList
      = (⟨0, pre ++ post⟩ :: linesIn 0 pre post) ++ linesIn (byteSize pre) post [] := by
  show (collect 0 (pre ++ post) #[⟨0, pre ++ post⟩]).toList = _
  rw [collect_toList, linesIn_append]
  simp

/-! ## The search for a line

Lines start one after another, so halving finds the last one that starts at or before an offset. -/

/-- What the halving keeps: line `lo` starts at or before `offset`, and line `hi` does not or is
past the last one. -/
theorem search_spec (ix : LineIndex) (offset n lo hi : Nat) (hlt : lo < hi) (hfuel : hi ≤ lo + n)
    (hlo : ix.lineStart lo ≤ offset) (hhi : hi = ix.size ∨ offset < ix.lineStart hi) :
    lo ≤ ix.search offset n lo hi ∧ ix.search offset n lo hi < hi ∧
      ix.lineStart (ix.search offset n lo hi) ≤ offset ∧
      (ix.search offset n lo hi + 1 = ix.size ∨
        offset < ix.lineStart (ix.search offset n lo hi + 1)) := by
  induction n generalizing lo hi with
  | zero => omega
  | succ n ih =>
      simp only [search]
      split
      · rename_i hle
        have heq : hi = lo + 1 := by omega
        subst heq
        exact ⟨Nat.le_refl _, hlt, hlo, hhi.imp_left id⟩
      · rename_i hgap
        split
        · rename_i hmid
          obtain ⟨h₁, h₂, h₃, h₄⟩ := ih ((lo + hi) / 2) hi (by omega) (by omega) hmid hhi
          exact ⟨by omega, h₂, h₃, h₄⟩
        · rename_i hmid
          obtain ⟨h₁, h₂, h₃, h₄⟩ :=
            ih lo ((lo + hi) / 2) (by omega) (by omega) hlo (Or.inr (Nat.lt_of_not_le hmid))
          exact ⟨h₁, by omega, h₃, h₄⟩

theorem lineStart_eq (ix : LineIndex) (line : Nat) :
    ix.lineStart line = (ix.lines.toList[line]?.map (·.start)).getD 0 := by
  simp [lineStart]

theorem lineRest_eq (ix : LineIndex) (line : Nat) :
    ix.lineRest line = (ix.lines.toList[line]?.map (·.rest)).getD [] := by
  simp [lineRest]

/-- **The line of a place** is the last one that starts before it. -/
theorem line_eq (pre post : List Char) :
    (ofText (pre ++ post)).line (byteSize pre) = (linesIn 0 pre post).length := by
  have hlines := lines_ofText pre post
  have hsize : (ofText (pre ++ post)).size
      = (linesIn 0 pre post).length + 1 + (linesIn (byteSize pre) post []).length := by
    show (ofText (pre ++ post)).lines.toList.length = _
    rw [hlines]
    simp only [List.length_append, List.length_cons]
  obtain ⟨-, hlt, hstart, hnext⟩ :=
    search_spec (ofText (pre ++ post)) (byteSize pre) (ofText (pre ++ post)).size 0
      (ofText (pre ++ post)).size (by omega) (by omega) (by rw [lineStart_eq, hlines]; simp)
      (Or.inl rfl)
  rw [line]
  generalize (ofText (pre ++ post)).search (byteSize pre) (ofText (pre ++ post)).size 0
    (ofText (pre ++ post)).size = line at hlt hstart hnext ⊢
  rw [lineStart_eq, hlines] at hstart hnext
  rcases Nat.lt_trichotomy line (linesIn 0 pre post).length with hless | heq | hmore
  · -- the next line starts in `pre` too
    exfalso
    have hin : line + 1 < (⟨0, pre ++ post⟩ ::
        linesIn 0 pre post : List Line).length := by simp; omega
    rw [List.getElem?_append_left hin, List.getElem?_cons_succ,
      List.getElem?_eq_getElem (by omega)] at hnext
    have hle := (start_of_mem_linesIn (List.getElem_mem hless)).2
    simp only [Option.map_some, Option.getD_some] at hnext
    omega
  · exact heq
  · -- this line starts in `post`
    exfalso
    have hout : (⟨0, pre ++ post⟩ :: linesIn 0 pre post : List Line).length ≤ line := by simp; omega
    have hin : line - (⟨0, pre ++ post⟩ :: linesIn 0 pre post : List Line).length
        < (linesIn (byteSize pre) post []).length := by
      simp only [List.length_cons]
      omega
    rw [List.getElem?_append_right hout, List.getElem?_eq_getElem hin] at hstart
    have hgt := (start_of_mem_linesIn (List.getElem_mem hin)).1
    simp only [Option.map_some, Option.getD_some] at hstart
    omega

/-- What is known of a place: its line, and the text of the line before and after it. -/
theorem line_spec (pre post : List Char) :
    ∃ gone,
      (ofText (pre ++ post)).lineRest ((ofText (pre ++ post)).line (byteSize pre)) = gone ++ post ∧
      (ofText (pre ++ post)).lineStart ((ofText (pre ++ post)).line (byteSize pre)) + byteSize gone
        = byteSize pre ∧
      placeAfter (0, 0) pre post = ((ofText (pre ++ post)).line (byteSize pre), width gone) := by
  obtain ⟨gone, hrest, hstart, hplace⟩ := last_linesIn ⟨0, pre ++ post⟩ [] pre post 0 rfl
  simp only [byteSize_nil, Nat.add_zero, Nat.zero_add, width_nil] at hrest hstart hplace
  have hget : (ofText (pre ++ post)).lines.toList[(linesIn 0 pre post).length]?
      = some ((⟨0, pre ++ post⟩ :: linesIn 0 pre post).getLast (by simp)) := by
    rw [lines_ofText, List.getElem?_append_left (by simp), List.getLast_eq_getElem]
    simp
  rw [line_eq, lineRest_eq, lineStart_eq, hget]
  exact ⟨gone, hrest, hstart, hplace⟩

/-- The line of a place, counted. -/
theorem line_place (pre post : List Char) :
    (ofText (pre ++ post)).line (byteSize pre) = (placeAfter (0, 0) pre post).1 := by
  obtain ⟨gone, -, -, hplace⟩ := line_spec pre post
  rw [hplace]

/-- Counting from the start of its line leads to a place. -/
theorem advance_line (pre post : List Char) :
    advance
        (byteSize pre - (ofText (pre ++ post)).lineStart
          ((ofText (pre ++ post)).line (byteSize pre))) 0
        ((ofText (pre ++ post)).lineRest ((ofText (pre ++ post)).line (byteSize pre)))
      = ((placeAfter (0, 0) pre post).2, post) := by
  obtain ⟨gone, hrest, hstart, hplace⟩ := line_spec pre post
  have hoffset : byteSize pre
      - (ofText (pre ++ post)).lineStart ((ofText (pre ++ post)).line (byteSize pre)) =
        byteSize gone := by
    omega
  rw [hoffset, hrest, advance_append, Nat.zero_add, hplace]

/-- **A line index counts right**: the position of a place is what counting through the text before
it gives. -/
theorem position_eq (pre post : List Char) :
    (ofText (pre ++ post)).position (byteSize pre)
      = ⟨saturate (placeAfter (0, 0) pre post).1, saturate (placeAfter (0, 0) pre post).2⟩ := by
  simp only [position, advance_line]
  rw [line_place]

end LineIndex

/-! ## Cursors

A cursor is always at some place of the text (`Cursor.At`), and moving it keeps that so. -/

namespace Cursor

/-- A cursor stands at a place: it knows its line, its column and the text that follows. -/
structure At (c : Cursor) (pre post : List Char) : Prop where
  index : c.index = LineIndex.ofText (pre ++ post)
  offset : c.offset = byteSize pre
  rest : c.rest = post
  place : placeAfter (0, 0) pre post = (c.line, c.column)

/-- At first a cursor is at the start. -/
theorem start_at (text : List Char) : (start (LineIndex.ofText text)).At [] text := by
  have hlines := LineIndex.lines_ofText [] text
  refine ⟨rfl, ?_, ?_, rfl⟩
  · show LineIndex.lineStart _ 0 = 0
    rw [LineIndex.lineStart_eq, ← List.nil_append text, hlines]
    rfl
  · show LineIndex.lineRest _ 0 = text
    rw [LineIndex.lineRest_eq, ← List.nil_append text, hlines]
    rfl

/-- Counting on from a cursor leads to a place behind it on the same line. -/
theorem At.advance {c : Cursor} {pre mid post : List Char} (hc : c.At pre (mid ++ post))
    (hline : (placeAfter (0, 0) (pre ++ mid) post).1 = c.line) :
    Text.advance (byteSize (pre ++ mid) - c.offset) c.column c.rest
      = ((placeAfter (0, 0) (pre ++ mid) post).2, post) := by
  have hoffset : byteSize (pre ++ mid) - c.offset = byteSize mid := by
    rw [hc.offset, byteSize_append]
    omega
  rw [hoffset, hc.rest, advance_append]
  rw [placeAfter_append, hc.place] at hline ⊢
  -- no line ends in between, so the column moves on by the width
  rcases placeAfter_cases (c.line, c.column) mid post with hless | heq
  · rw [hline] at hless
    exact absurd hless (Nat.lt_irrefl _)
  · rw [heq]

/-- **A cursor goes to any place** and counts the same as the index, whether it goes on from where
it stands or starts the line anew. -/
theorem position_at {c : Cursor} {text pre post pre' post' : List Char} (hc : c.At pre' post')
    (htext' : text = pre' ++ post') (htext : text = pre ++ post) :
    (c.position (byteSize pre)).1 = (LineIndex.ofText text).position (byteSize pre) ∧
      (c.position (byteSize pre)).2.At pre post := by
  have hindex : c.index = LineIndex.ofText (pre ++ post) := by rw [hc.index, ← htext', htext]
  have hline : c.index.line (byteSize pre) = (placeAfter (0, 0) pre post).1 := by
    rw [hindex, LineIndex.line_place]
  -- what the cursor counts on from, and that it comes to the same column and rest
  have hpassed :
      advance (byteSize pre - (if c.index.line (byteSize pre) ≠ c.line ∨ byteSize pre < c.offset
          then atLine c.index (c.index.line (byteSize pre)) else c).offset)
        (if c.index.line (byteSize pre) ≠ c.line ∨ byteSize pre < c.offset
          then atLine c.index (c.index.line (byteSize pre)) else c).column
        (if c.index.line (byteSize pre) ≠ c.line ∨ byteSize pre < c.offset
          then atLine c.index (c.index.line (byteSize pre)) else c).rest
      = ((placeAfter (0, 0) pre post).2, post) := by
    split
    · show advance (byteSize pre - c.index.lineStart (c.index.line (byteSize pre))) 0
        (c.index.lineRest (c.index.line (byteSize pre))) = _
      rw [hindex]
      exact LineIndex.advance_line pre post
    · rename_i hsame
      rw [not_or, Decidable.not_not, Nat.not_lt, hc.offset] at hsame
      obtain ⟨mid, rfl⟩ := isPrefix_of_byteSize_le ⟨post, htext.symm⟩ ⟨post', htext'.symm⟩ hsame.2
      have hpost' : post' = mid ++ post := by
        rw [htext, List.append_assoc] at htext'
        exact (List.append_cancel_left htext').symm
      subst hpost'
      exact hc.advance (hline.symm.trans hsame.1)
  refine ⟨?_, hindex, rfl, ?_, ?_⟩
  · rw [htext, LineIndex.position_eq]
    simp only [position, hpassed]
    rw [hline]
  · simp only [position, hpassed]
  · simp only [position, hpassed]
    rw [hline]

end Cursor

def AreBoundaries (text : List Char) (offsets : List Nat) : Prop :=
  ∀ offset ∈ offsets, ∃ pre post, text = pre ++ post ∧ offset = byteSize pre

/-- Looking up offsets one after another gives the position of each. -/
theorem positions_eq {text : List Char} {offsets : List Nat} (h : AreBoundaries text offsets) :
    (positions (LineIndex.ofText text) offsets).toList
      = offsets.map (LineIndex.ofText text).position := by
  -- the induction carries a cursor that stands at some place of the text
  have hfold : ∀ (offsets : List Nat) (found : Array Position) (c : Cursor)
      (pre' post' : List Char),
      AreBoundaries text offsets → text = pre' ++ post' → c.At pre' post' →
      (offsets.foldl (fun (acc : Array Position × Cursor) offset =>
        (acc.1.push (acc.2.position offset).1, (acc.2.position offset).2)) (found, c)).1.toList
        = found.toList ++ offsets.map (LineIndex.ofText text).position := by
    intro offsets
    induction offsets with
    | nil => intro found c pre' post' _ _ _; simp
    | cons offset offsets ih =>
        intro found c pre' post' hb htext' hc
        obtain ⟨pre, post, htext, rfl⟩ := hb _ List.mem_cons_self
        obtain ⟨hposition, hat⟩ := Cursor.position_at hc htext' htext
        have hrest : AreBoundaries text offsets := fun o ho => hb o (List.mem_cons_of_mem _ ho)
        simp only [List.foldl_cons]
        rw [ih _ _ pre post hrest htext hat, hposition]
        simp
  exact hfold offsets #[] _ [] text h rfl (Cursor.start_at text)

/-! ## Reading order

Positions are compared by line and then by column, as pairs of numbers are. -/

namespace Position

/-- The order on words is the order on numbers. -/
theorem le_iff {p q : Position} : p.le q = true ↔
    p.line.toNat < q.line.toNat ∨ p.line.toNat = q.line.toNat ∧
    p.character.toNat ≤ q.character.toNat := by
  rw [le, Bool.or_eq_true, Bool.and_eq_true, decide_eq_true_eq, beq_iff_eq, decide_eq_true_eq,
    UInt32.lt_iff_toNat_lt, UInt32.le_iff_toNat_le, UInt32.toNat_inj]

/-- One after another. -/
theorem le_trans {p q r : Position} (hpq : p.le q = true) (hqr : q.le r = true) :
    p.le r = true := by
  rw [le_iff] at hpq hqr ⊢
  omega

theorem le_total (p q : Position) : (p.le q || q.le p) = true := by
  rw [Bool.or_eq_true, le_iff, le_iff]
  omega

/-- Two positions with neither before the other are the same. -/
theorem le_antisymm {p q : Position} (hpq : p.le q = true) (hqp : q.le p = true) : p = q := by
  rw [le_iff] at hpq hqp
  obtain ⟨hline, hcharacter⟩ : p.line.toNat = q.line.toNat ∧
      p.character.toNat = q.character.toNat := by omega
  cases p
  cases q
  rw [mk.injEq]
  exact ⟨UInt32.toNat_inj.1 hline, UInt32.toNat_inj.1 hcharacter⟩

theorem zero_le (p : Position) : le ⟨0, 0⟩ p = true := by
  rw [le_iff]
  show 0 < p.line.toNat ∨ 0 = p.line.toNat ∧ 0 ≤ p.character.toNat
  omega

/-- A position in numbers without a bound. -/
def place (p : Position) : Nat × Nat := (p.line.toNat, p.character.toNat)

end Position

/-- In a text that is not too long a position is the place that was counted. -/
theorem LineIndex.place_position {pre post : List Char}
    (hsize : byteSize (pre ++ post) < UInt32.size) :
    ((ofText (pre ++ post)).position (byteSize pre)).place = placeAfter (0, 0) pre post := by
  have hbound := placeAfter_le (0, 0) pre post 0 (Nat.le_refl _) (Nat.le_refl _)
  rw [byteSize_append] at hsize
  rw [position_eq, Position.place, saturate_toNat (by omega), saturate_toNat (by omega)]

end SharpTokens.Text
