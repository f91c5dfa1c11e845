import SharpTokens.Lexeme.Lex
import SharpTokens.Proofs.Lexeme.Pieces

/-!
# Where lexemes are

The pieces that a text is cut into tile it: they stand one after another, none is empty, and
together they are the whole text (`Raw.tiled_ofText`). Lexemes are some of the pieces, so each is a
part of the text at its span, and no two overlap (`Lexed.placed`).

The walk through the pieces keeps some of them and changes none, so the lexemes are a part of the
pieces in their order. All that is said of pieces one by one, or of any two of them, is then true of
lexemes.
-/

namespace SharpTokens

open Text

namespace Raw

/-! ## Pieces of a text

The spans of pieces are given by the texts before them, and nothing else is used of how a text is
cut. -/

/-- Pieces that make up a text whose first byte is at `offset`. -/
inductive Tiled : (offset : Nat) → List Raw → (text : List Char) → Prop
  | nil {offset} : Tiled offset [] []
  | cons {offset r rs rest} : r.text ≠ [] → r.span = ⟨offset, offset + byteSize r.text⟩ →
      Tiled (offset + byteSize r.text) rs rest → Tiled offset (r :: rs) (r.text ++ rest)

/-- Pieces that a text is cut into tile it. -/
theorem Cut.tiled {offset : Nat} {rs : List Raw} {text : List Char} (h : Cut offset rs text) :
    Tiled offset rs text := by
  induction h with
  | nil => exact .nil
  | @cons offset rs text hne _ ih =>
      have := Tiled.cons (first_ne_nil hne) rfl ih
      rwa [first_append] at this

/-- **The pieces of a text tile it.** -/
theorem tiled_ofText (text : List Char) : Tiled 0 (ofText text) text := (cut_ofText text).tiled

end Raw

namespace Lexeme

/-- A lexeme is a part of a text that is not empty, and its span says where. -/
def In (text : List Char) (l : Lexeme) : Prop :=
  l.text.toList ≠ [] ∧
    ∃ pre post, text = pre ++ (l.text.toList ++ post) ∧
      l.span = ⟨byteSize pre, byteSize pre + byteSize l.text.toList⟩

def Before (l m : Lexeme) : Prop := l.span.stop ≤ m.span.start

/-- The lexeme that a piece is, unless it is an error. -/
def ofRaw? (r : Raw) : Option Lexeme := r.kind.map fun k => ⟨k, String.ofList r.text, r.span⟩

end Lexeme

namespace Raw.Tiled

/-- No piece starts before the text. -/
theorem span_start_le {offset : Nat} {rs : List Raw} {text : List Char} (h : Tiled offset rs text)
    {r : Raw} (hr : r ∈ rs) : offset ≤ r.span.start := by
  induction h with
  | nil => cases hr
  | cons _ hspan _ ih =>
      rcases List.mem_cons.1 hr with rfl | hr
      · exact Nat.le_of_eq (congrArg Span.start hspan).symm
      · exact Nat.le_trans (Nat.le_add_right _ _) (ih hr)

/-- The lexemes among pieces are parts of the text, in order. -/
theorem lexemes {rs : List Raw} {text pre : List Char} (h : Tiled (byteSize pre) rs text) :
    (∀ l ∈ rs.filterMap Lexeme.ofRaw?, l.In (pre ++ text)) ∧
      (rs.filterMap Lexeme.ofRaw?).Pairwise Lexeme.Before := by
  generalize hoffset : byteSize pre = offset at h
  induction h generalizing pre with
  | nil => exact ⟨by simp, by simp⟩
  | @cons offset r rs rest hne hspan htiled ih =>
      obtain ⟨hin, hpairwise⟩ := ih (show byteSize (pre ++ r.text) = _ by simp [hoffset])
      simp only [List.append_assoc] at hin
      rw [List.filterMap_cons]
      split
      · exact ⟨hin, hpairwise⟩
      · rename_i l hl
        obtain ⟨k, -, rfl⟩ := Option.map_eq_some_iff.1 hl
        refine ⟨?_, List.pairwise_cons.2 ⟨?_, hpairwise⟩⟩
        · intro l hl
          rcases List.mem_cons.1 hl with rfl | hl
          · exact ⟨by simpa using hne, pre, rest, by simp, by simp [hspan, hoffset]⟩
          · exact hin l hl
        · intro m hm
          obtain ⟨r', hr', hm'⟩ := List.mem_filterMap.1 hm
          obtain ⟨k', -, rfl⟩ := Option.map_eq_some_iff.1 hm'
          show r.span.stop ≤ r'.span.start
          rw [hspan]
          exact htiled.span_start_le hr'

end Raw.Tiled

namespace Lexed

/-! ## Lexemes of a text

Errors and directives add no lexeme, and a piece that is one is kept or left out. -/

namespace Progress

@[simp] theorem lexemes_fail (p : Progress) (e : SyntaxError) (s : Span) :
    (p.fail e s).lexemes = p.lexemes := rfl

@[simp] theorem lexemes_failIfActive (p : Progress) (e : SyntaxError) (s : Span) :
    (p.failIfActive e s).lexemes = p.lexemes := by
  unfold failIfActive
  split <;> rfl

@[simp] theorem lexemes_direct (p : Progress) (r : Raw) : (p.direct r).lexemes = p.lexemes := by
  unfold direct
  split
  · split <;> rfl
  · exact lexemes_failIfActive p _ _

/-- A lexeme is kept at the end, or not at all. -/
theorem lexemes_keep (p : Progress) (l : Lexeme) :
    (p.keep l).lexemes = p.lexemes ∨ (p.keep l).lexemes = p.lexemes.push l := by
  unfold keep
  split
  · exact Or.inr rfl
  · exact Or.inl rfl

/-- A piece adds the lexeme that it is, or none. -/
theorem lexemes_next (p : Progress) (r : Raw) :
    (p.next r).lexemes.toList = p.lexemes.toList ∨
      ∃ l, Lexeme.ofRaw? r = some l ∧ (p.next r).lexemes.toList = p.lexemes.toList ++ [l] := by
  show (p.add r).lexemes.toList = _ ∨ ∃ l, _ ∧ (p.add r).lexemes.toList = _
  unfold add
  split
  · exact Or.inl (by simp)
  · rename_i kind _ hkind
    split
    · exact Or.inl rfl
    · rcases p.lexemes_keep ⟨kind, String.ofList r.text, r.span⟩ with h | h
      · exact Or.inl (by rw [h])
      · exact Or.inr ⟨⟨kind, String.ofList r.text, r.span⟩, by simp [Lexeme.ofRaw?, hkind],
          by rw [h]; simp⟩
  · exact Or.inl (by simp)

/-- The pieces that are kept come in their order. -/
theorem lexemes_foldl_next (rs : List Raw) (p : Progress) :
    ∃ ls, (rs.foldl next p).lexemes.toList = p.lexemes.toList ++ ls ∧
      ls.Sublist (rs.filterMap Lexeme.ofRaw?) := by
  induction rs generalizing p with
  | nil => exact ⟨[], by simp, by simp⟩
  | cons r rs ih =>
      obtain ⟨ls, hls, hsub⟩ := ih (p.next r)
      rw [List.foldl_cons, hls]
      rcases p.lexemes_next r with h | ⟨l, hl, h⟩
      · refine ⟨ls, by rw [h], hsub.trans ?_⟩
        rw [List.filterMap_cons]
        split
        · exact List.Sublist.refl _
        · exact List.sublist_cons_self _ _
      · refine ⟨l :: ls, by rw [h, List.append_assoc, List.singleton_append], ?_⟩
        rw [List.filterMap_cons_some hl]
        exact hsub.cons_cons l

end Progress

theorem lexemes_ofText (text : List Char) :
    (ofText text).lexemes = ((Raw.ofText text).foldl Progress.next .initial).lexemes.toList := by
  simp only [ofText]
  split
  · rfl
  · rw [Progress.lexemes_fail]

/-- The lexemes of a text are some of its pieces, in order. -/
theorem lexemes_sublist (text : List Char) :
    (ofText text).lexemes.Sublist ((Raw.ofText text).filterMap Lexeme.ofRaw?) := by
  obtain ⟨ls, hls, hsub⟩ := Progress.lexemes_foldl_next (Raw.ofText text) .initial
  rw [lexemes_ofText, hls]
  exact hsub

/-- **Lexemes are parts of the text, in order.** -/
theorem placed (text : List Char) :
    (∀ l ∈ (ofText text).lexemes, l.In text) ∧ (ofText text).lexemes.Pairwise Lexeme.Before := by
  obtain ⟨hin, hpairwise⟩ :=
    Raw.Tiled.lexemes (show Raw.Tiled (byteSize []) _ text from Raw.tiled_ofText text)
  exact ⟨fun l hl => hin l ((lexemes_sublist text).mem hl),
    hpairwise.sublist (lexemes_sublist text)⟩

end Lexed

namespace Lexeme

/-- A text is divided where a lexeme starts. -/
theorem In.boundary {text : List Char} {l : Lexeme} (h : l.In text) :
    ∃ pre post, text = pre ++ post ∧ l.span.start = byteSize pre := by
  obtain ⟨-, pre, post, htext, hspan⟩ := h
  exact ⟨pre, _, htext, by rw [hspan]⟩

/-- A lexeme is no wider than its text is long. -/
theorem In.width_le {text : List Char} {l : Lexeme} (h : l.In text) :
    width l.text.toList ≤ byteSize text := by
  obtain ⟨-, pre, post, rfl, -⟩ := h
  have := width_le_byteSize l.text.toList
  rw [byteSize_append, byteSize_append]
  omega

/-- **Positions of lexemes follow their order.** Of two lexemes in a text that is not too long for
positions, the second is on a later line, or on the same line and not before the end of the
first. -/
theorem In.position_lt {text : List Char} {l m : Lexeme} (hl : l.In text) (hm : m.In text)
    (hlm : l.Before m) (hsize : byteSize text < UInt32.size) :
    ((LineIndex.ofText text).position l.span.start).line.toNat
        < ((LineIndex.ofText text).position m.span.start).line.toNat ∨
      ((LineIndex.ofText text).position l.span.start).line
          = ((LineIndex.ofText text).position m.span.start).line ∧
        ((LineIndex.ofText text).position l.span.start).character.toNat + width l.text.toList
          ≤ ((LineIndex.ofText text).position m.span.start).character.toNat := by
  obtain ⟨-, pre, post, htext, hspan⟩ := hl
  obtain ⟨-, pre', post', htext', hspan'⟩ := hm
  -- what stands before the second starts with the first
  have hle : byteSize (pre ++ l.text.toList) ≤ byteSize pre' := by
    have hbefore : l.span.stop ≤ m.span.start := hlm
    rw [hspan, hspan'] at hbefore
    rw [byteSize_append]
    exact hbefore
  obtain ⟨mid, rfl⟩ := isPrefix_of_byteSize_le ⟨_, htext'.symm⟩
    ⟨post, by rw [htext, List.append_assoc]⟩ hle
  have hpost : l.text.toList ++ post = (l.text.toList ++ mid) ++ (m.text.toList ++ post') := by
    rw [htext, List.append_assoc, List.append_assoc] at htext'
    rw [List.append_assoc]
    exact List.append_cancel_left htext'
  have hplace := LineIndex.place_position (htext ▸ hsize)
  have hplace' := LineIndex.place_position (htext' ▸ hsize)
  rw [← htext, hpost] at hplace
  rw [← htext', List.append_assoc, placeAfter_append, ← hplace] at hplace'
  rw [hspan, hspan', List.append_assoc]
  rcases placeAfter_cases ((LineIndex.ofText text).position (byteSize pre)).place
    (l.text.toList ++ mid)
    (m.text.toList ++ post') with hless | heq
  · left
    rwa [← hplace'] at hless
  · right
    rw [← hplace', width_append] at heq
    obtain ⟨hline, hcharacter⟩ := Prod.mk.inj heq
    refine ⟨UInt32.toNat_inj.1 hline.symm, ?_⟩
    show _ + width l.text.toList ≤ _
    rw [hcharacter, ← Nat.add_assoc]
    exact Nat.le_add_right _ _

end Lexeme

end SharpTokens
