import Mathlib.Data.List.Induction
import SharpTokens.Lexeme.Lex
import SharpTokens.Proofs.Lexeme.LongestMatch

/-!
# Lexemes and lines

Most lexemes end with their line. Those that may go on are runs of blanks, and the comments and
strings that are opened by one of a few texts (`Rule.openers`). So what a match holds before the end
of a line is blank, or an opener is in it (`Rule.opener_of_crossing`).

What can hold a line feed is seen from the patterns of the rules: blanks, and a comment and strings
that each start with a text of their own.
-/

namespace SharpTokens

open Text Pattern

variable {u v : List Char}

/-! ## Over the end of a line

The rules whose patterns mention a line feed are few, and they can be listed. -/

namespace Rule

def openers : List String := ["/*", "@\"", "@$\"", "\"\"\""]

def crossing : List Pattern := [blockComment, verbatimString, interpolatedVerbatimString, rawString]

/-- Only whitespace, comments and strings of several lines go past the end of a line. -/
theorem mentions_lineFeed :
    ∀ r ∈ table, r.pattern.mentions '\n' = true → r.pattern = whitespace ∨ r.pattern ∈ crossing :=
  forall_mem_table (by decide)

/-- A comment or string of several lines has its opener on the first. -/
theorem opener_of_matches {p : Pattern} (hp : p ∈ crossing) (h : p.Matches u) :
    ∃ s ∈ openers, ∃ pre rest, u = pre ++ s.toList ++ rest ∧ '\n' ∉ pre ++ s.toList := by
  simp only [crossing, List.mem_cons, List.not_mem_nil, or_false] at hp
  rcases hp with rfl | rfl | rfl | rfl
  · obtain ⟨v, rest, rfl, hv, -⟩ := matches_seq.1 h
    rw [(matches_text _).1 hv]
    exact ⟨"/*", by decide, [], rest, rfl, by decide⟩
  · obtain ⟨v, rest, rfl, hv, -⟩ := matches_seq.1 h
    rw [(matches_text _).1 hv]
    exact ⟨"@\"", by decide, [], rest, rfl, by decide⟩
  · obtain ⟨v, w, rfl, hv, hw⟩ := matches_seq.1 h
    obtain ⟨w', rest, rfl, hw', -⟩ := matches_seq.1 hw
    rw [(matches_text _).1 hw']
    rcases matches_alt.1 hv with hv | hv
    · rw [(matches_text _).1 hv]
      exact ⟨"@\"", by decide, ['$'], rest, rfl, by decide⟩
    · rw [(matches_text _).1 hv]
      exact ⟨"@$\"", by decide, [], rest, rfl, by decide⟩
  · obtain ⟨marks, w, rfl, hmarks, hw⟩ := matches_seq.1 h
    obtain ⟨v, rest, rfl, hv, -⟩ := matches_seq.1 hw
    rw [(matches_text _).1 hv]
    refine ⟨"\"\"\"", by decide, marks, rest, (List.append_assoc ..).symm, fun hmem => ?_⟩
    rcases List.mem_append.1 hmem with hmem | hmem
    · exact absurd (hmarks.mentions hmem) (by decide)
    · exact absurd hmem (by decide)

/-- **A match that goes over the end of a line is blank or opens before it.** -/
theorem opener_of_crossing {r : Rule} (hr : r ∈ table) (h : r.pattern.Matches (u ++ '\n' :: v)) :
    (∀ c ∈ u ++ '\n' :: v, blanks.mem c = true) ∨ ∃ s ∈ openers, s.toList <:+: u := by
  rcases mentions_lineFeed r hr (h.mentions (by simp)) with hblank | hcrossing
  · left
    intro c hc
    rw [hblank] at h
    have hmentions := h.mentions hc
    simpa only [whitespace, plus, Pattern.mentions, Bool.or_self] using hmentions
  · right
    obtain ⟨s, hs, pre, rest, heq, hline⟩ := opener_of_matches hcrossing h
    refine ⟨s, hs, ?_⟩
    rcases List.append_eq_append_iff.1 heq with ⟨t, hpre, hcons⟩ | ⟨t, rfl, -⟩
    · -- the opener would hold the end of the line
      cases t with
      | nil => exact ⟨pre, [], by rw [hpre, List.append_nil, List.append_nil]⟩
      | cons c t =>
          cases hcons
          exact absurd (by rw [hpre]; simp) hline
    · exact ⟨pre, t, rfl⟩

end Rule

/-! ## The start of a line

Whether a place is at the start of a line is kept as a flag while a text is gone through. Here it is
said of the text. -/

namespace Lexed

/-- The last line of a text is blank up to its end: blanks follow the start of the text or of a
line. -/
def AtLineStart (text : List Char) : Prop :=
  ∃ before gap, text = before ++ gap ∧ (∀ c ∈ before.getLast?, c = '\n' ∨ c = '\r') ∧
    ∀ c ∈ gap, isBlank c = true ∨ c = '\ufeff'

/-- Where the flag is set, nothing but blanks follows the last end of a line. -/
theorem atLineStart_of_foldl {text : List Char} (h : text.foldl lineStartAfter true = true) :
    AtLineStart text := by
  induction text using List.reverseRecOn with
  | nil => exact ⟨[], [], rfl, by simp, by simp⟩
  | append_singleton text c ih =>
      simp only [List.foldl_append, List.foldl_cons, List.foldl_nil, lineStartAfter,
        Bool.or_eq_true, Bool.and_eq_true, beq_iff_eq] at h
      rcases h with hbreak | ⟨hstart, hblank⟩
      · exact ⟨text ++ [c], [], by simp, by simpa using hbreak, by simp⟩
      · obtain ⟨before, gap, rfl, hbefore, hgap⟩ := ih hstart
        refine ⟨before, gap ++ [c], by simp, hbefore, fun d hd => ?_⟩
        rcases List.mem_append.1 hd with hd | hd
        · exact hgap d hd
        · cases List.mem_singleton.1 hd
          exact hblank

end Lexed

end SharpTokens
