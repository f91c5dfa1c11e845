import SharpTokens.Proofs.Lexeme.Parts
import SharpTokens.Proofs.Lexeme.Tiling
import SharpTokens.Proofs.Text.Slices

/-!
# Where errors are

An error in a text is at a piece of it and says what is wrong with this piece, or it is at the end
of the text, where a conditional is still open (`Lexed.origin_of_error`). Each piece of a text is
the slice at its span, and no two start at the same place (`Raw.eq_of_start`), so the place of an
error tells what it is about, and none is where a lexeme starts (`Lexed.start_ne_of_lexeme`).

What was found in the first pieces of a text stays (`Lexed.mem_errors_of_foldl`,
`Lexed.mem_lexemes_of_foldl`).

Errors are noted in passing, and none is ever taken back. So they are followed through the walk as
the lexemes are: what one piece adds, and by induction what all of them add. The end of the text
adds one more if a conditional is open.
-/

namespace SharpTokens

open Text

/-! ## Pieces

The pieces tile the text, so they are told apart by where they start. -/

namespace Raw.Tiled

variable {rs : List Raw} {text pre : List Char} {offset : Nat} {r : Raw}

/-- A piece behind `pre` is the slice at its span. -/
theorem slice_of_mem (h : Tiled (byteSize pre) rs text) (hr : r ∈ rs) :
    slice? (pre ++ text) r.span = some r.text := by
  generalize hoffset : byteSize pre = offset at h
  induction h generalizing pre with
  | nil => cases hr
  | @cons offset r' rs rest _ hspan _ ih =>
      rcases List.mem_cons.1 hr with rfl | hr
      · exact slice?_eq_some_iff.2 ⟨pre, rest, rfl, by rw [hspan, hoffset]⟩
      · have := ih hr (show byteSize (pre ++ r'.text) = _ by rw [byteSize_append, hoffset])
        rwa [List.append_assoc] at this

theorem text_ne_nil (h : Tiled offset rs text) (hr : r ∈ rs) : r.text ≠ [] := by
  induction h with
  | nil => cases hr
  | cons hne _ _ ih =>
      rcases List.mem_cons.1 hr with rfl | hr
      · exact hne
      · exact ih hr

/-- Pieces start one after another. -/
theorem pairwise_start (h : Tiled offset rs text) :
    rs.Pairwise fun r s => r.span.start < s.span.start := by
  induction h with
  | nil => exact .nil
  | @cons offset r rs rest hne hspan htiled ih =>
      refine List.pairwise_cons.2 ⟨fun s hs => ?_, ih⟩
      have hpos := byteSize_pos hne
      have hle := htiled.span_start_le hs
      rw [hspan]
      show offset < s.span.start
      omega

end Raw.Tiled

namespace Raw

variable {text : List Char} {r s : Raw}

theorem slice_of_mem (hr : r ∈ ofText text) : slice? text r.span = some r.text :=
  (show Tiled (byteSize []) _ text from tiled_ofText text).slice_of_mem hr

/-- No two pieces of a text start at the same place. -/
theorem eq_of_start (hr : r ∈ ofText text) (hs : s ∈ ofText text)
    (h : r.span.start = s.span.start) : r = s := by
  obtain ⟨i, hi, rfl⟩ := List.mem_iff_getElem.1 hr
  obtain ⟨j, hj, rfl⟩ := List.mem_iff_getElem.1 hs
  have hpairwise := List.pairwise_iff_getElem.1 (tiled_ofText text).pairwise_start
  rcases Nat.lt_trichotomy i j with hlt | rfl | hlt
  · exact absurd h (Nat.ne_of_lt (hpairwise i j hi hj hlt))
  · rfl
  · exact absurd h (Nat.ne_of_gt (hpairwise j i hj hi hlt))

/-- What an error at a piece can be about: the piece is no lexeme, or it is a directive. -/
def Explains (r : Raw) (e : SyntaxError) : Prop :=
  r.kind = none ∧ e = Lexed.blame r.text ∨ r.kind = some .directive

end Raw

/-! ## Errors

A piece adds at most one error, and that at its own span. -/

namespace Lexed

namespace Progress

/-- An error is noted where text is read, and only there. -/
theorem errors_failIfActive (p : Progress) (e : SyntaxError) (span : Span) :
    (p.failIfActive e span).errors = p.errors ∨
      (p.failIfActive e span).errors = p.errors.push (e, span) := by
  unfold failIfActive
  split
  · exact .inr rfl
  · exact .inl rfl

/-- A directive adds at most one error. -/
theorem errors_direct (p : Progress) (r : Raw) :
    (p.direct r).errors = p.errors ∨ ∃ e, (p.direct r).errors = p.errors.push (e, r.span) := by
  unfold direct
  split
  · split
    · exact .inl rfl
    · exact .inr ⟨_, rfl⟩
  · exact (p.errors_failIfActive .invalidDirective r.span).imp_right fun h => ⟨_, h⟩

/-- A piece adds an error at itself, or none. -/
theorem errors_next (p : Progress) (r : Raw) : (p.next r).errors.toList = p.errors.toList ∨
    ∃ e, r.Explains e ∧ (p.next r).errors.toList = p.errors.toList ++ [(e, r.span)] := by
  show (p.add r).errors.toList = _ ∨ ∃ e, _ ∧ (p.add r).errors.toList = _
  unfold add
  split
  · next hkind =>
    rcases p.errors_direct r with h | ⟨e, h⟩
    · exact .inl (by rw [h])
    · exact .inr ⟨e, .inr hkind, by rw [h, Array.toList_push]⟩
  · split
    · exact .inl rfl
    · unfold keep
      split
      all_goals exact .inl rfl
  · next hkind =>
    rcases p.errors_failIfActive (blame r.text) r.span with h | h
    · exact .inl (by rw [h])
    · exact .inr ⟨blame r.text, .inl ⟨hkind, rfl⟩, by rw [h, Array.toList_push]⟩

/-- Pieces add errors at themselves, behind those found before. -/
theorem errors_foldl_next (rs : List Raw) (p : Progress) :
    ∃ es, (rs.foldl next p).errors.toList = p.errors.toList ++ es ∧
      ∀ e ∈ es, ∃ r ∈ rs, e.2 = r.span ∧ r.Explains e.1 := by
  induction rs generalizing p with
  | nil => exact ⟨[], by simp, by simp⟩
  | cons r rs ih =>
      obtain ⟨es, hes, horigin⟩ := ih (p.next r)
      have hrest : ∀ e ∈ es, ∃ r' ∈ r :: rs, e.2 = r'.span ∧ r'.Explains e.1 := by
        intro e he
        obtain ⟨r', hr', hspan⟩ := horigin e he
        exact ⟨r', List.mem_cons_of_mem r hr', hspan⟩
      rw [List.foldl_cons, hes]
      rcases p.errors_next r with h | ⟨cause, hexplains, h⟩
      · exact ⟨es, by rw [h], hrest⟩
      · refine ⟨(cause, r.span) :: es, by rw [h, List.append_assoc, List.singleton_append], ?_⟩
        exact List.forall_mem_cons.2 ⟨⟨r, List.mem_cons_self, rfl, hexplains⟩, hrest⟩

end Progress

variable {text : List Char} {before after : List Raw} {e : SyntaxError × Span}

/-- What the pieces add, and the conditional that is open at the end. -/
theorem errors_ofText (text : List Char) : (ofText text).errors =
    ((Raw.ofText text).foldl Progress.next .initial).errors.toList ++
      if ((Raw.ofText text).foldl Progress.next .initial).regions.stack.isEmpty then []
      else [(.unbalancedConditional, .point (byteSize text))] := by
  simp only [ofText]
  split
  · rw [List.append_nil]
  · rw [Progress.fail, Array.toList_push]

/-- **An error is about the piece that it is at**, or about the end of the text. -/
theorem origin_of_error (he : e ∈ (ofText text).errors) :
    (∃ r ∈ Raw.ofText text, e.2 = r.span ∧ r.Explains e.1) ∨
      e = (.unbalancedConditional, .point (byteSize text)) := by
  rw [errors_ofText, List.mem_append] at he
  rcases he with he | he
  · obtain ⟨es, hes, horigin⟩ := Progress.errors_foldl_next (Raw.ofText text) .initial
    rw [hes] at he
    exact .inl (horigin e he)
  · split at he
    · cases he
    · exact .inr (List.mem_singleton.1 he)

/-- Errors are at pieces of the text or at its end. -/
theorem slice_of_mem_errors (he : e ∈ (ofText text).errors) : ∃ cs, slice? text e.2 = some cs := by
  rcases origin_of_error he with ⟨r, hr, hspan, -⟩ | rfl
  · exact ⟨r.text, by rw [hspan, Raw.slice_of_mem hr]⟩
  · exact ⟨[], slice?_point ⟨text, [], by simp, rfl⟩⟩

/-- No error starts where a lexeme does. -/
theorem start_ne_of_lexeme {r : Raw} {k : Kind} (hr : r ∈ Raw.ofText text) (hkind : r.kind = some k)
    (hk : k ≠ .directive) (he : e ∈ (ofText text).errors) : e.2.start ≠ r.span.start := by
  intro hsame
  rcases origin_of_error he with ⟨s, hs, hspan, hexplains⟩ | rfl
  · -- the error would be about the lexeme
    obtain rfl : s = r := Raw.eq_of_start hs hr (by rw [← hspan, hsame])
    rw [Raw.Explains, hkind] at hexplains
    rcases hexplains with ⟨hnone, -⟩ | hdirective
    · cases hnone
    · exact hk (Option.some.inj hdirective)
  · have hpos := byteSize_pos ((Raw.tiled_ofText text).text_ne_nil hr)
    obtain ⟨pre, post, htext, hspan⟩ := slice?_eq_some_iff.1 (Raw.slice_of_mem hr)
    have hend : byteSize text = byteSize pre := by
      rw [hspan] at hsame
      exact hsame
    rw [htext, byteSize_append, byteSize_append] at hend
    omega

/-- Errors found in the first pieces of a text are among those of the text. -/
theorem mem_errors_of_foldl (hpieces : Raw.ofText text = before ++ after)
    (he : e ∈ (before.foldl Progress.next .initial).errors.toList) : e ∈ (ofText text).errors := by
  obtain ⟨es, hes, -⟩ := Progress.errors_foldl_next after (before.foldl Progress.next .initial)
  rw [errors_ofText, hpieces, List.foldl_append, hes]
  exact List.mem_append_left _ (List.mem_append_left _ he)

/-- Lexemes found in the first pieces of a text are among those of the text. -/
theorem mem_lexemes_of_foldl (hpieces : Raw.ofText text = before ++ after) {l : Lexeme}
    (hl : l ∈ (before.foldl Progress.next .initial).lexemes.toList) :
    l ∈ (ofText text).lexemes := by
  obtain ⟨ls, hls, -⟩ := Progress.lexemes_foldl_next after (before.foldl Progress.next .initial)
  rw [lexemes_ofText, hpieces, List.foldl_append, hls]
  exact List.mem_append_left _ hl

variable {r : Raw}

/-- Where text is read, a piece that is no lexeme is reported. -/
theorem mem_errors_of_none (hpieces : Raw.ofText text = before ++ r :: after)
    (hread : (before.foldl Progress.next .initial).regions.isActive = true)
    (hkind : r.kind = none) :
    (blame r.text, r.span) ∈ (ofText text).errors := by
  rw [List.append_cons] at hpieces
  refine mem_errors_of_foldl hpieces ?_
  rw [List.foldl_append, List.foldl_cons, List.foldl_nil]
  simp [Progress.next, Progress.add, hkind, Progress.failIfActive, hread, Progress.fail]

/-- Where text is read, a lexeme is kept. -/
theorem mem_lexemes_of_some (hpieces : Raw.ofText text = before ++ r :: after)
    (hread : (before.foldl Progress.next .initial).regions.isActive = true) {k : Kind}
    (hkind : r.kind = some k) (hk : k.isTrivia = false) :
    ⟨k, String.ofList r.text, r.span⟩ ∈ (ofText text).lexemes := by
  have hne : k ≠ .directive := by
    rintro rfl
    cases hk
  rw [List.append_cons] at hpieces
  refine mem_lexemes_of_foldl hpieces ?_
  rw [List.foldl_append, List.foldl_cons, List.foldl_nil, Progress.next_eq,
    partOf_of_ne_directive hkind hne, hk]
  simp [Progress.take, Progress.keep, hread]

end Lexed

end SharpTokens
