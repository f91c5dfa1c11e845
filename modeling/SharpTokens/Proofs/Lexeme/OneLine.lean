import SharpTokens.Proofs.Lexeme.Cutting
import SharpTokens.Proofs.Lexeme.Errors
import SharpTokens.Proofs.Lexeme.Lines
import SharpTokens.Proofs.Text.LineBreaks

/-!
# Pieces that end with their line

Comments behind `//`, directives and strings between plain quotes end with their line, closed or
not: they hold no line feed (`Raw.lineFeed_not_mem`). A carriage return does not end them, though,
not even one that ends a line alone. So each of them goes over as many lines as it has carriage
returns before its last character, and stays on one line wherever carriage returns only stand before
line feeds (`Raw.ends_with_line`).

The rules say which kinds can hold a line feed at all, and of those the strings between plain quotes
are told apart by the three quotes that a raw string starts with. The lines that a piece goes over
are counted in its text, since what stands before a piece only matters for a line feed behind a
carriage return.
-/

namespace SharpTokens

open Text

/-- Some carriage return of a text has no line feed behind it. -/
def Text.HasLoneReturn (text : List Char) : Prop :=
  ∃ pre post, text = pre ++ '\r' :: post ∧ post.head? ≠ some '\n'

namespace Rule

open Pattern

variable {v : List Char}

/-- A raw string starts with three quotes. -/
theorem quotes_of_rawString (h : rawString.Matches ('"' :: v)) : "\"\"\"".toList <+: '"' :: v := by
  obtain ⟨marks, w, heq, hmarks, hw⟩ := matches_seq.1 h
  obtain ⟨quotes, rest, rfl, hquotes, -⟩ := matches_seq.1 hw
  rw [(matches_text _).1 hquotes] at heq
  cases marks with
  | nil => exact ⟨rest, heq.symm⟩
  | cons c marks =>
      -- a mark is no quote
      have hmark := hmarks.mentions (c := '"')
        (by rw [(List.cons.inj heq).1]; exact List.mem_cons_self)
      exact absurd hmark (by decide)

/-- Of what goes over several lines, only strings between three quotes start with one. -/
theorem quotes_of_crossing {p : Pattern} (hp : p ∈ crossing) (h : p.Matches ('"' :: v)) :
    "\"\"\"".toList <+: '"' :: v := by
  have hothers : ∀ p ∈ crossing, p ≠ rawString →
      ∀ s ∈ p.firsts, s.mem '"' = false := by decide +kernel
  by_cases hraw : p = rawString
  · exact quotes_of_rawString (hraw ▸ h)
  · obtain ⟨s, hs, hmem⟩ := exists_mem_firsts h
    rw [hothers p hp hraw s hs] at hmem
    cases hmem

end Rule

namespace Raw

variable {text : List Char} {r : Raw}

/-- Whether a piece is a comment behind `//`, a directive, or a string between plain quotes, which
may be left open. -/
def endsWithLine (r : Raw) : Bool :=
  match r.kind with
  | some .lineComment => true
  | some .directive => true
  | some .string => ['"'].isPrefixOf r.text && !"\"\"\"".toList.isPrefixOf r.text
  | none => ['"'].isPrefixOf r.text
  | _ => false

/-- A piece starts and ends on the same line, as lines are counted for positions and as they are
told apart for directives. -/
def OnOneLine (text : List Char) (r : Raw) : Prop :=
  (LineIndex.ofText text).line (r.span.stop - 1) = (LineIndex.ofText text).line r.span.start ∧
    ∀ c ∈ r.text.dropLast, Lexed.lineStartAfter false c = false

/-- The rules with which a lexeme may go over the end of a line. -/
theorem kind_of_crossing : ∀ r ∈ Rule.table, r.pattern = Rule.whitespace ∨
    r.pattern ∈ Rule.crossing →
    r.outcome = .accept .whitespace ∨ r.outcome = .accept .blockComment ∨
      r.outcome = .accept .string ∧ r.pattern ∈ Rule.crossing :=
  Rule.forall_mem_table (by decide)

/-- **What ends with its line holds no line feed.** -/
theorem lineFeed_not_mem (hr : r ∈ ofText text) (h : r.endsWithLine = true) : '\n' ∉ r.text := by
  intro hfeed
  obtain ⟨before, rest, -, -, hheads⟩ := (cut_ofText text).heads [] rfl hr
  unfold endsWithLine at h
  generalize r.kind = kind at hheads h
  cases hheads with
  | lexeme hrule ho hmatches _ _ =>
      have hcrossing := Rule.mentions_lineFeed _ hrule (hmatches.mentions hfeed)
      rcases kind_of_crossing _ hrule hcrossing with hkind | hkind | ⟨hkind, hcrossing⟩
      · rw [ho] at hkind
        cases hkind
        cases h
      · rw [ho] at hkind
        cases hkind
        cases h
      · rw [ho] at hkind
        cases hkind
        simp only [Bool.and_eq_true, Bool.not_eq_true', List.isPrefixOf_iff_prefix,
          ← Bool.not_eq_true] at h
        obtain ⟨v, hv⟩ := h.1
        rw [← hv] at hmatches h
        exact h.2 (Rule.quotes_of_crossing hcrossing hmatches)
  | refused hopen _ _ => exact absurd (hopen.mentions hfeed) (by decide)
  | stray hnone _ _ =>
      -- the quote alone is a match
      obtain ⟨v, hv⟩ := List.isPrefixOf_iff_prefix.1 h
      have hquote : Rule.openString.Matches ['"'] := by
        rw [← Pattern.accepts_iff]
        decide +kernel
      refine hnone ⟨.refuse, Rule.openString⟩
        (Rule.mem_table_of_varying (by simp [Rule.varyingTexts])) ['"'] ?_
        Nat.one_pos hquote
      rw [← hv]
      exact ⟨v ++ rest, by simp⟩

/-- Without a line feed, lines are only told apart at carriage returns. -/
theorem onOneLine_iff (hfeed : '\n' ∉ r.text)
    (hline : (LineIndex.ofText text).line (r.span.stop - 1) =
      (LineIndex.ofText text).line r.span.start + r.text.dropLast.count '\r') :
    OnOneLine text r ↔ '\r' ∉ r.text.dropLast := by
  constructor
  · rintro ⟨hsame, -⟩
    rw [hline, Nat.add_eq_left] at hsame
    exact List.count_eq_zero.1 hsame
  · intro hreturn
    refine ⟨by rw [hline, List.count_eq_zero.2 hreturn, Nat.add_zero], fun c hc => ?_⟩
    have hnot : c ≠ '\n' ∧ c ≠ '\r' := by
      constructor
      · rintro rfl
        exact hfeed (List.dropLast_subset _ hc)
      · rintro rfl
        exact hreturn hc
    simp [Lexed.lineStartAfter, hnot.1, hnot.2]

/-- An error about a string that is left open is at a piece that ends with its line. -/
theorem endsWithLine_of_error {span : Span} {v : List Char}
    (he : (.unterminated .string, span) ∈ (Lexed.ofText text).errors)
    (hslice : slice? text span = some ('"' :: v)) :
    ∃ r ∈ ofText text, r.span = span ∧ r.endsWithLine = true := by
  rcases Lexed.origin_of_error he with ⟨r, hr, rfl, hexplains⟩ | hend
  · refine ⟨r, hr, rfl, ?_⟩
    rw [slice_of_mem hr] at hslice
    rcases hexplains with ⟨hkind, -⟩ | hkind
    · simp only [endsWithLine, hkind, Option.some.inj hslice]
      rfl
    · simp only [endsWithLine, hkind]
  · cases hend

/-- **Comments, directives and strings end with their line.** Each comment behind `//`, directive
and string between plain quotes, closed or reported as open, goes over as many lines as it has
carriage returns before its last character, and holds no line feed. So it stays on one line exactly
if there is no such carriage return, and always in a text where each carriage return is followed by
a line feed. -/
theorem ends_with_line (text : List Char) :
    (∀ r ∈ ofText text, r.endsWithLine = true →
      '\n' ∉ r.text ∧
      (LineIndex.ofText text).line (r.span.stop - 1) =
        (LineIndex.ofText text).line r.span.start + r.text.dropLast.count '\r' ∧
      (OnOneLine text r ↔ '\r' ∉ r.text.dropLast) ∧
      (¬ HasLoneReturn text → OnOneLine text r)) ∧
    ∀ span v, (.unterminated .string, span) ∈ (Lexed.ofText text).errors →
    slice? text span = some ('"' :: v) →
      ∃ r ∈ ofText text, r.span = span ∧ r.endsWithLine = true := by
  refine ⟨fun r hr h => ?_, fun span v he hslice => endsWithLine_of_error he hslice⟩
  have hfeed := lineFeed_not_mem hr h
  obtain ⟨before, rest, htext, hspan⟩ := slice?_eq_some_iff.1 (slice_of_mem hr)
  obtain ⟨mid, c, hmid⟩ : ∃ mid c, r.text = mid ++ [c] := by
    rcases List.eq_nil_or_concat r.text with hnil | ⟨mid, c, hmid⟩
    · exact absurd hnil ((tiled_ofText text).text_ne_nil hr)
    · exact ⟨mid, c, hmid.trans (List.concat_eq_append ..)⟩
  have hdrop : r.text.dropLast = mid := by rw [hmid, List.dropLast_concat]
  rw [hmid] at hfeed htext
  rw [List.append_assoc, List.singleton_append] at htext
  have hline : (LineIndex.ofText text).line (r.span.stop - 1) =
      (LineIndex.ofText text).line r.span.start + r.text.dropLast.count '\r' := by
    rw [hspan, hdrop, hmid, htext]
    exact LineIndex.line_last_byte before rest hfeed
  have hiff := onOneLine_iff (hmid ▸ hfeed) hline
  refine ⟨hmid ▸ hfeed, hline, hiff, fun hlone => hiff.2 fun hreturn => hlone ?_⟩
  -- a carriage return before the last character is followed by a character of the piece
  rw [hdrop] at hreturn
  obtain ⟨front, back, rfl⟩ := List.append_of_mem hreturn
  refine ⟨before ++ front, back ++ c :: rest, by rw [htext]; simp, fun hhead => hfeed ?_⟩
  cases back with
  | nil => simp [Option.some.inj hhead]
  | cons d back => simp [Option.some.inj hhead]

theorem ends_with_line_comment :
    (⟨some .lineComment, "// é\r".toList, ⟨0, 6⟩⟩ : Raw) ∈ ofText "// é\r\nx".toList ∧
      OnOneLine "// é\r\nx".toList ⟨some .lineComment, "// é\r".toList, ⟨0, 6⟩⟩ := by
  have hmem : (⟨some .lineComment, "// é\r".toList, ⟨0, 6⟩⟩ : Raw) ∈ ofText "// é\r\nx".toList := by
    decide +kernel
  obtain ⟨-, -, hiff, -⟩ := (ends_with_line _).1 _ hmem rfl
  exact ⟨hmem, hiff.2 (by decide)⟩

/-- A carriage return alone ends the line of a comment but not the comment, which hides all that
follows. A directive and a string, closed or not, are not ended either. -/
theorem return_ends_no_piece :
    (⟨some .lineComment, "// a\rclass C \x7b \x7d".toList, ⟨0, 16⟩⟩ : Raw) ∈
      ofText "// a\rclass C \x7b \x7d".toList ∧
      ¬ OnOneLine "// a\rclass C \x7b \x7d".toList
      ⟨some .lineComment, "// a\rclass C \x7b \x7d".toList, ⟨0, 16⟩⟩ ∧
      Lexed.ofText "// a\rclass C \x7b \x7d".toList = ⟨[], []⟩ ∧
      ∀ s ∈ ["#line\rb", "\"a\rb\"", "\"a\rb"], (ofText s.toList).length = 1 ∧
        ∀ r ∈ ofText s.toList, r.endsWithLine = true ∧
        (LineIndex.ofText s.toList).line r.span.start = 0 ∧
          (LineIndex.ofText s.toList).line (r.span.stop - 1) = 1 :=
  ⟨by decide +kernel, fun h => absurd h.1 (by decide +kernel), by decide +kernel, by decide +kernel⟩

end Raw

end SharpTokens
