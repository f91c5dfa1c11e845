import SharpTokens.Proofs.Directive.Operands
import SharpTokens.Proofs.Directive.Unread
import SharpTokens.Proofs.Grammar.Run.Nesting
import SharpTokens.Proofs.Lexeme.Errors
import SharpTokens.Proofs.SourceFile.Spans
import SharpTokens.Proofs.Text.Lookups

/-!
# Reading a text goes nowhere else

Whatever is asked of a text while it is read is there. The pieces of a text tile it, so all that is
cut out of it, counted over or reported is a slice of it, between characters, and a guard is never
left where nothing is open. `ReadsSafely` lists what is asked, and `ofText_readsSafely` proves it of
every text.

What is reported is in order by bytes in every text, and by lines and columns in those whose lines
all have a number. Past the last line with a number the order by lines is lost
(`diagnostics_not_byPosition`).
-/

namespace SharpTokens

open Text Grammar

/-! ## Pieces

The text of a directive is looked at behind its mark. -/

/-- The text of a directive behind its mark, which is one byte long. -/
theorem Raw.slice_of_directive {text : List Char} {r : Raw} (hr : r ∈ Raw.ofText text)
    (hkind : r.kind = some .directive) :
    slice? text ⟨r.span.start + 1, r.span.stop⟩ = some (r.text.drop 1) := by
  obtain ⟨v, hv⟩ := Lexed.hash_of_cut (cut_ofText text) hr hkind
  obtain ⟨pre, post, htext, hspan⟩ := slice?_eq_some_iff.1 (slice_of_mem hr)
  rw [hv] at htext hspan
  rw [hv, hspan]
  refine slice?_eq_some_iff.2 ⟨pre ++ ['#'], post, by simpa using htext, ?_⟩
  have hmark : '#'.utf8Size = 1 := rfl
  simp only [List.drop_succ_cons, List.drop_zero, byteSize_append, byteSize_cons, byteSize_nil,
    hmark, Nat.add_assoc, Nat.add_zero]

/-! ## Words

What is said of a word is cut out of the text at its span. -/

/-- A word has the text of its lexeme. -/
theorem text_wordsOf (ls : List Lexeme) (i : Nat) :
    Words.text (wordsOf ls #[]) i = ((ls[i]?).map (·.text)).getD "" := by
  have hmap := congrArg (fun entries => (entries[i]?).map Prod.snd) (map_wordsOf ls #[])
  simp only [List.map_nil, List.nil_append, List.getElem?_map, Option.map_map,
    Array.getElem?_toList] at hmap
  exact congrArg (·.getD "") hmap

namespace Layout

/-- Each word starts between two characters, and behind the last one is the end of the text. -/
theorem boundary (text : List Char) (i : Nat) : IsBoundary text ((layoutOf text).start i) := by
  cases hl : (Lexed.ofText text).lexemes[i]? with
  | some l =>
      rw [start_of_some hl]
      exact (in_of_some hl).boundary
  | none =>
      rw [start_of_none hl]
      exact ⟨text, [], by simp, rfl⟩

/-- The text of a word stands at its span; past the last word there is none. -/
theorem slice (text : List Char) (i : Nat) :
    slice? text ((layoutOf text).span i) = some ((wordsOfText text).text i).toList := by
  cases hl : (Lexed.ofText text).lexemes[i]? with
  | some l =>
      rw [span_of_some hl, (in_of_some hl).slice, text_wordsOf, hl]
      rfl
  | none =>
      rw [span, lexemes_layoutOf, text_wordsOf, hl]
      exact slice?_point ⟨text, [], by simp, rfl⟩

end Layout

/-! ## Diagnostics

Errors have the spans of pieces or of words, so they are at slices of the text, and their positions
are counted there. -/

namespace SourceFile

variable {text : List Char} {errors : List (SyntaxError × Span)}

/-- Positions are those of the places where errors start. -/
theorem diagnose_eq (h : ∀ e ∈ errors, IsBoundary text e.2.start) :
    diagnose (LineIndex.ofText text) errors
    = errors.map fun e => ⟨e.1, e.2, (LineIndex.ofText text).position e.2.start⟩ := by
  have hboundaries : AreBoundaries text (errors.map (·.2.start)) := by
    intro offset hoffset
    obtain ⟨e, he, rfl⟩ := List.mem_map.1 hoffset
    exact h e he
  rw [diagnose, positions_eq hboundaries, List.map_map, List.zipWith_map_right, List.zipWith_self]
  rfl

/-- Errors are put in the order of their places. -/
theorem pairwise_inOrder (errors : List (SyntaxError × Span)) :
    (inOrder errors).Pairwise fun a b => a.2.start ≤ b.2.start := by
  let before (a b : SyntaxError × Span) : Bool := decide (a.2.start ≤ b.2.start)
  have htrans : ∀ a b c, before a b = true → before b c = true → before a c = true :=
    fun a b c hab hbc => decide_eq_true
      (Nat.le_trans (of_decide_eq_true hab) (of_decide_eq_true hbc))
  have htotal : ∀ a b, (before a b || before b a) = true := by
    intro a b
    rw [Bool.or_eq_true, decide_eq_true_eq, decide_eq_true_eq]
    exact Nat.le_total _ _
  exact (List.pairwise_mergeSort htrans htotal errors).imp of_decide_eq_true

abbrev errorsOf (text : List Char) (limit : Nat) : List (SyntaxError × Span) :=
  inOrder ((Lexed.ofText text).errors
    ++ (parse (wordsOfText text) limit).faults.map fun f => (f.cause, (layoutOf text).span f.word))

/-- Each error is at a slice of the text. -/
theorem slice_of_mem_errorsOf {limit : Nat} {e : SyntaxError × Span}
    (he : e ∈ errorsOf text limit) :
    ∃ cs, slice? text e.2 = some cs := by
  rcases List.mem_append.1 ((List.mergeSort_perm _ _).mem_iff.1 he) with he | he
  · exact Lexed.slice_of_mem_errors he
  · obtain ⟨f, -, rfl⟩ := List.mem_map.1 he
    exact ⟨_, Layout.slice text f.word⟩

theorem boundary_of_mem_errorsOf {limit : Nat} {e : SyntaxError × Span}
    (he : e ∈ errorsOf text limit) :
    IsBoundary text e.2.start := by
  obtain ⟨cs, hslice⟩ := slice_of_mem_errorsOf he
  exact (bounds_of_slice? hslice).2.2.1

/-- All that is reported, with the positions that the index gives. -/
theorem diagnostics_ofText (text : List Char) (limit : Nat) : (ofText text limit).diagnostics
    = (errorsOf text limit).map fun e => ⟨e.1, e.2, (LineIndex.ofText text).position e.2.start⟩ :=
  diagnose_eq fun _ he => boundary_of_mem_errorsOf he

end SourceFile

/-! ## All that is asked

One field for each thing that is asked of a text. -/

/-- Whatever is asked of a text while it is read is there. -/
structure ReadsSafely (text : List Char) (limit : Nat) : Prop where
  /-- Pieces are not empty, one starts where the one before it stops, and together they are the
  text. -/
  tiled : Raw.Tiled 0 (Raw.ofText text) text
  /-- A piece is a slice of the text, and so is all that stands before it. -/
  pieces : ∀ r ∈ Raw.ofText text, slice? text r.span = some r.text ∧
    ∃ front, slice? text ⟨0, r.span.start⟩ = some front
  /-- So is a directive behind its mark, what it goes on with, and every end of that. -/
  directives : ∀ r ∈ Raw.ofText text, r.kind = some .directive →
    slice? text ⟨r.span.start + 1, r.span.stop⟩ = some (r.text.drop 1) ∧
      ∀ c, (Directive.parse (r.text.drop 1)).operand? = some c →
        ∃ t, r.span.start + 1 ≤ t.start ∧ t.stop ≤ r.span.stop ∧ slice? text t = some c ∧
          ∀ rest, rest <:+ c → slice? text ⟨t.stop - byteSize rest, t.stop⟩ = some rest
  /-- Conditions and what they are made of are read from ends of their text, and leave ends of
  it. -/
  conditions : ∀ depth, Condition.ReadsOn (Condition.operand depth) ∧
    Condition.ReadsOn (Condition.disjunction (Condition.operand depth)) ∧
      ∀ cs read, (∀ rest, rest <:+ cs → Condition.operand depth rest = read rest) →
        Condition.disjunction (Condition.operand depth) cs = Condition.disjunction read cs
  signs : ∀ sign cs rest, Condition.eat sign cs = some rest → rest <:+ cs
  symbols : ∀ cs a rest, Condition.name cs = some (a, rest) →
    ∃ gap word, cs = gap ++ (word ++ rest) ∧ word ≠ [] ∧ a = .symbol (String.ofList word)
  /-- A word is a slice of the text, and so is every name in the tree. -/
  words : ∀ i, slice? text ((SourceFile.ofText text limit).layout.span i) =
    some ((wordsOfText text).text i).toList
  names : (SourceFile.ofText text limit).tree.Everywhere fun label _ => ∀ word s,
    label.name = some (.present word s) →
    slice? text ((SourceFile.ofText text limit).layout.span word) = some s.toList
  /-- Between characters, the line of an offset is one of the lines and its column is counted over a
  slice. -/
  lookups : ∀ offset, IsBoundary text offset →
    (LineIndex.ofText text).line offset < (LineIndex.ofText text).size ∧
      ∃ cs, slice? text ⟨(LineIndex.ofText text).lineStart ((LineIndex.ofText text).line offset),
        offset⟩ = some cs ∧
        (LineIndex.ofText text).position offset
          = ⟨saturate ((LineIndex.ofText text).line offset), saturate (width cs)⟩
  /-- So it is by a cursor, whatever it was asked before. -/
  cursors : ∀ offsets offset, AreBoundaries text offsets → IsBoundary text offset →
    ∃ cs, slice? text ⟨((Cursor.after (LineIndex.ofText text) offsets).base offset).offset,
      offset⟩ = some cs
  /-- Words start between characters, and so do diagnostics, so no other offset is asked for. -/
  starts : ∀ i, IsBoundary text ((SourceFile.ofText text limit).layout.start i)
  /-- When a construct is left, the guard is the one that it was entered with, and something is
  open. -/
  closes : ∀ {α : Type} {p : Nonterminals → Parser α} {s : State} {opened : Guard},
    Construct (wordsOfText text) s.guard.depth s.pos p → s.guard.depth ≤ s.pos →
    s.pos ≤ (wordsOfText text).size →
    s.guard.enter limit = .ok opened →
    (p (grammarOf (wordsOfText text)) ⟨wordsOfText text, limit⟩
      { s with guard := opened }).2.guard = opened ∧
      0 < opened.depth ∧ opened.leave = s.guard
  /-- Never are more constructs open than words were taken. -/
  reached : ∀ {a}, Reached (wordsOfText text) limit a →
    a.2.guard.depth ≤ a.2.pos ∧ a.2.pos ≤ (wordsOfText text).size
  /-- Diagnostics are about slices of the text. -/
  diagnostics : ∀ d ∈ (SourceFile.ofText text limit).diagnostics,
    (∃ cs, slice? text d.span = some cs) ∧
    d.span.start ≤ d.span.stop ∧ d.span.stop ≤ byteSize text ∧ IsBoundary text d.span.start
  /-- They are in order, by offset and by position. Lines have 32-bit numbers, and past the last of
  these the order by position is lost (`diagnostics_not_byPosition`). -/
  byOffset : (SourceFile.ofText text limit).diagnostics.Pairwise fun d e => d.span.start ≤
    e.span.start
  byPosition : (LineIndex.ofText text).size ≤ UInt32.size →
    (SourceFile.ofText text limit).diagnostics.Pairwise fun d e => d.position.le e.position = true

/-- **Whatever is asked of a text while it is read is there**, for any text and any limit. -/
theorem ofText_readsSafely (text : List Char) (limit : Nat)
    (hsize : byteSize text < Guard.unlimited) :
    ReadsSafely text limit where
  tiled := Raw.tiled_ofText text
  pieces r hr := by
    have hslice := Raw.slice_of_mem hr
    exact ⟨hslice, slice?_front (bounds_of_slice? hslice).2.2.1⟩
  directives r hr hkind := by
    have hslice := Raw.slice_of_directive hr hkind
    refine ⟨hslice, fun c hc => ?_⟩
    obtain ⟨t, hstart, hstop, hpart⟩ := slice?_of_isInfix hslice (Directive.isInfix_operand hc)
    exact ⟨t, hstart, hstop, hpart, fun rest hrest => slice?_of_isSuffix hpart hrest⟩
  conditions depth := by
    have hread := Condition.readsOn_operand depth
    exact ⟨hread, hread.disjunction, fun cs read heq => Condition.disjunction_congr hread heq⟩
  signs _ _ _ h := Condition.eat_suffix h
  symbols _ _ _ h := Condition.name_spec h
  words := Layout.slice text
  names := by
    obtain ⟨below, htree, hbelow⟩ := parse_placed_whole limit (wordsOfText_few hsize)
    show (parse (wordsOfText text) limit).tree.Everywhere _
    rw [htree]
    refine .node nofun fun t ht => ?_
    exact ((hbelow.of_mem ht).everywhere_laidOut (Nat.le_refl _)).imp fun _ _ h word s hname =>
      (h.present hname).1
  lookups _ h := LineIndex.counted_slice h
  cursors _ _ h hoffset := Cursor.counted_slice h hoffset
  starts := Layout.boundary text
  closes hp hd hlo hopen := hp.closes (wordsOfText_few hsize) hd hlo hopen
  reached h := by
    have hstart := (h.mayStart (wordsOfText_few hsize)).1
    exact ⟨hstart.1, hstart.2.2⟩
  diagnostics d hd := by
    rw [SourceFile.diagnostics_ofText] at hd
    obtain ⟨e, he, rfl⟩ := List.mem_map.1 hd
    obtain ⟨cs, hslice⟩ := SourceFile.slice_of_mem_errorsOf he
    have hbounds := bounds_of_slice? hslice
    exact ⟨⟨cs, hslice⟩, hbounds.1, hbounds.2.1, hbounds.2.2.1⟩
  byOffset := by
    rw [SourceFile.diagnostics_ofText, List.pairwise_map]
    exact SourceFile.pairwise_inOrder _
  byPosition hlines := by
    rw [SourceFile.diagnostics_ofText, List.pairwise_map]
    refine (SourceFile.pairwise_inOrder _).imp_of_mem fun ha hb hab => ?_
    exact LineIndex.position_mono hlines (SourceFile.boundary_of_mem_errorsOf ha)
      (SourceFile.boundary_of_mem_errorsOf hb)
      hab

/-- A directive behind a lexeme, a character that is not closed and a brace too deep. -/
theorem ofText_readsSafely_faulty :
    byteSize "é #if\r\n#if !(A\n'\n\x7b \x7b x \x7d".toList < Guard.unlimited ∧
      ReadsSafely "é #if\r\n#if !(A\n'\n\x7b \x7b x \x7d".toList 1 :=
  ⟨by decide, ofText_readsSafely _ 1 (by decide)⟩

/-! ## Past the last line with a number

Numbers of lines are words that saturate. Two errors past the last one have the same line, and then
their columns decide, which say nothing about their order. -/

/-- Empty lines, then a stray character behind a blank, and another one that starts the next
line. -/
def strayLines (n : Nat) : List Char := List.replicate n '\n' ++ " \\\n\\".toList

/-- Each line feed is a line. -/
theorem Text.placeAfter_lineFeeds (n : Nat) (line : Nat) (post : List Char) :
    placeAfter (line, 0) (List.replicate n '\n') post = (line + n, 0) := by
  induction n generalizing line with
  | zero => rfl
  | succ n ih =>
      have hends : endsLine '\n' (List.replicate n '\n' ++ post) = true := rfl
      rw [List.replicate_succ, placeAfter, if_pos hends, ih, Nat.add_assoc, Nat.add_comm 1]

theorem Text.byteSize_lineFeeds (n : Nat) : byteSize (List.replicate n '\n') = n := by
  induction n with
  | zero => rfl
  | succ n ih =>
      have hsize : '\n'.utf8Size = 1 := rfl
      rw [List.replicate_succ, byteSize_cons, ih, hsize, Nat.add_comm]

/-- A place behind empty lines. -/
theorem position_behind_lineFeeds (n : Nat) (pre post : List Char) :
    (LineIndex.ofText (List.replicate n '\n' ++ (pre ++ post))).position (n + byteSize pre)
      = ⟨saturate (placeAfter (n, 0) pre post).1, saturate (placeAfter (n, 0) pre post).2⟩ := by
  have hposition := LineIndex.position_eq (List.replicate n '\n' ++ pre) post
  rw [byteSize_append, byteSize_lineFeeds, placeAfter_append, placeAfter_lineFeeds, Nat.zero_add,
    List.append_assoc] at hposition
  exact hposition

/-- A stray character on one line behind a blank, and one at the start of the next line. -/
theorem diagnostics_strayLines (n limit : Nat) :
    (SourceFile.ofText (strayLines n) limit).diagnostics =
    [⟨.unknownCharacter, ⟨n + 1, n + 2⟩, ⟨saturate n, saturate 1⟩⟩,
      ⟨.unknownCharacter, ⟨n + 3, n + 4⟩, ⟨saturate (n + 1), saturate 0⟩⟩] := by
  have hstray : Lexed.ofText " \\\n\\".toList =
      ⟨[], [(.unknownCharacter, ⟨1, 2⟩), (.unknownCharacter, ⟨3, 4⟩)]⟩ := by decide +kernel
  have hlexed : Lexed.ofText (strayLines n) =
      ⟨[], [(.unknownCharacter, ⟨n + 1, n + 2⟩), (.unknownCharacter, ⟨n + 3, n + 4⟩)]⟩ := by
    rw [strayLines, Lexed.ofText_behind_lineFeeds, hstray]
    rfl
  have hfaults : (parse (wordsOfText (strayLines n)) limit).faults = [] := by
    rw [wordsOfText, hlexed]
    rfl
  have herrors : SourceFile.errorsOf (strayLines n) limit =
      [(.unknownCharacter, ⟨n + 1, n + 2⟩), (.unknownCharacter, ⟨n + 3, n + 4⟩)] := by
    rw [SourceFile.errorsOf, hfaults, hlexed]
    exact List.mergeSort_of_pairwise (by simp)
  have hfirst := position_behind_lineFeeds n [' '] "\\\n\\".toList
  have hsecond := position_behind_lineFeeds n " \\\n".toList ['\\']
  rw [SourceFile.diagnostics_ofText, herrors]
  exact congrArg₂ (fun p q => [(⟨_, _, p⟩ : Diagnostic), ⟨_, _, q⟩]) hfirst hsecond

/-- Lines past the last one with a number are all numbered as that one, and so their columns may go
back. -/
theorem diagnostics_not_byPosition :
    ¬ (SourceFile.ofText (strayLines 4294967295) 0).diagnostics.Pairwise fun d e =>
      d.position.le e.position = true := by
  rw [diagnostics_strayLines]
  decide

end SharpTokens
