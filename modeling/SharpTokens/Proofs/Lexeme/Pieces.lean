import SharpTokens.Lexeme.Raw
import SharpTokens.Proofs.Text.Places

/-!
# Pieces of a text

A text is cut by taking the first piece off and cutting what is left (`Raw.Cut`). So a text has its
pieces wherever it stands (`Raw.Cut.moved`), and one that is cut where one part of it ends and the
other starts has the pieces of both. It is cut there if some piece starts there
(`Raw.Cut.parted_of_start`), or if no piece of the first part reaches over its end
(`Raw.Cut.parted_of_stop`).

Cutting does not look back: what is cut off a text depends on the text from there on. That is why a
text is cut into the same pieces at another offset, and why the pieces of two parts are those of the
whole where the whole is cut between them.
-/

namespace SharpTokens

open Text

def Text.Span.moved (n : Nat) (s : Span) : Span := ⟨n + s.start, n + s.stop⟩

namespace Raw

/-! ## Cutting

The loop gathers pieces from the last to the first, and with a bound on their number. The relation
has neither. -/

/-- A match is never empty, and neither is an error. -/
theorem munch_length_pos (live : List Rule) (taken : Nat) (best : Option (Outcome × Nat))
    (cs : List Char) (hbest : ∀ o n, best = some (o, n) → 0 < n) :
    0 < (munch live taken best cs).length := by
  induction cs generalizing live taken best with
  | nil =>
      unfold munch
      split
      · next o n => exact hbest o n rfl
      · exact Nat.lt_of_lt_of_le Nat.one_pos (Nat.le_max_right taken 1)
  | cons c cs ih =>
      unfold munch
      split
      · split
        · next o n => exact hbest o n rfl
        · show 0 < if taken = 0 || _ then taken + 1 else taken
          split
          · exact Nat.succ_pos _
          · next h =>
            simp only [Bool.or_eq_true, decide_eq_true_eq, not_or] at h
            exact Nat.pos_of_ne_zero h.1
      · apply ih
        intro o n ho
        split at ho
        · cases ho
          exact Nat.succ_pos _
        · exact hbest o n ho

/-- The piece with which a text starts whose first byte is at `offset`. -/
def first (offset : Nat) (text : List Char) : Raw :=
  let found := munch Rule.table 0 none text
  ⟨found.kind, text.take found.length, ⟨offset, offset + byteSize (text.take found.length)⟩⟩

/-- A text starts with a piece of some kind, or with an error. -/
structure Starts (text s : List Char) (kind : Option Kind) : Prop where
  kind_eq : (munch Rule.table 0 none text).kind = kind
  length_eq : (munch Rule.table 0 none text).length = s.length

/-- What is left of a text behind its first piece. -/
def behindFirst (text : List Char) : List Char := text.drop (munch Rule.table 0 none text).length

/-- The pieces of a text whose first byte is at `offset`. -/
inductive Cut : (offset : Nat) → List Raw → (text : List Char) → Prop
  | nil {offset} : Cut offset [] []
  | cons {offset rs text} : text ≠ [] → Cut (first offset text).span.stop rs (behindFirst text) →
      Cut offset (first offset text :: rs) text

variable {offset : Nat} {text s t : List Char} {rs rs' : List Raw}

/-- The first piece and what is left make up the text. -/
theorem first_append (offset : Nat) (text : List Char) :
    (first offset text).text ++ behindFirst text = text :=
  List.take_append_drop _ text

/-- No piece is empty. -/
theorem first_ne_nil (h : text ≠ []) : (first offset text).text ≠ [] := by
  have hpos := munch_length_pos Rule.table 0 none text (by simp)
  rw [first, Ne, List.take_eq_nil_iff]
  rintro (hzero | hnil)
  · omega
  · exact h hnil

/-- With a bound that the length of the text keeps within, all of the text is cut. -/
theorem cut_cuts (n offset : Nat) (done : List Raw) (text : List Char) (hn : text.length ≤ n) :
    ∃ pieces, (cut n offset done text).reverse = done.reverse ++ pieces ∧
      Cut offset pieces text := by
  induction n generalizing offset done text with
  | zero =>
      have htext : text = [] := List.length_eq_zero_iff.1 (Nat.le_zero.1 hn)
      subst htext
      exact ⟨[], by simp [cut], .nil⟩
  | succ n ih =>
      cases text with
      | nil => exact ⟨[], by simp [cut], .nil⟩
      | cons c cs =>
          -- a piece takes a character, so fewer are left
          have hpos := munch_length_pos Rule.table 0 none (c :: cs) (by simp)
          have hshort : (behindFirst (c :: cs)).length ≤ n := by
            rw [behindFirst, List.length_drop]
            omega
          obtain ⟨pieces, hcut, hcuts⟩ := ih (first offset (c :: cs)).span.stop
            (first offset (c :: cs) :: done)
            (behindFirst (c :: cs)) hshort
          refine ⟨first offset (c :: cs) :: pieces, ?_, .cons (List.cons_ne_nil c cs) hcuts⟩
          rw [cut]
          rw [List.reverse_cons, List.append_assoc, List.singleton_append] at hcut
          exact hcut

/-- **A text is cut into its pieces.** -/
theorem cut_ofText (text : List Char) : Cut 0 (ofText text) text := by
  obtain ⟨pieces, hcut, hcuts⟩ := cut_cuts text.length 0 [] text (Nat.le_refl _)
  have : ofText text = pieces := by simpa [ofText] using hcut
  rwa [this]

/-! ## Pieces and where they stand

A text at an offset has one sequence of pieces. Its spans are the offsets of the pieces in the text.
-/

def moved (n : Nat) (r : Raw) : Raw := { r with span := r.span.moved n }

def texts (rs : List Raw) : List Char := rs.flatMap (·.text)

@[simp] theorem texts_cons (r : Raw) (rs : List Raw) : texts (r :: rs) = r.text ++ texts rs := rfl

@[simp] theorem texts_append (rs rs' : List Raw) : texts (rs ++ rs') = texts rs ++ texts rs' :=
  List.flatMap_append

namespace Cut

/-- There is only one way to cut a text. -/
theorem unique (h : Cut offset rs text) (h' : Cut offset rs' text) : rs = rs' := by
  induction h generalizing rs' with
  | nil =>
      cases h' with
      | nil => rfl
      | cons hne _ => exact absurd rfl hne
  | cons hne _ ih =>
      cases h' with
      | nil => exact absurd rfl hne
      | cons _ hcut => rw [ih hcut]

/-- **A text has its pieces wherever it stands.** -/
theorem moved (h : Cut offset rs text) (n : Nat) :
    Cut (n + offset) (rs.map (Raw.moved n)) text := by
  induction h with
  | nil => exact .nil
  | @cons offset rs text hne _ ih =>
      have hfirst : (first offset text).moved n = first (n + offset) text := by
        rw [Raw.moved, first, first, Span.moved, Nat.add_assoc]
      rw [List.map_cons, hfirst]
      refine .cons hne ?_
      rw [← hfirst]
      exact ih

/-- What follows some of the pieces is cut into the others. -/
theorem split (h : Cut offset (rs ++ rs') text) :
    ∃ t, text = texts rs ++ t ∧ Cut (offset + byteSize (texts rs)) rs' t := by
  induction rs generalizing offset text with
  | nil => exact ⟨text, rfl, h⟩
  | cons r rs ih =>
      rw [List.cons_append] at h
      cases h with
      | cons _ hcut =>
          obtain ⟨t, hbehind, hrest⟩ := ih hcut
          refine ⟨t, ?_, ?_⟩
          · rw [texts_cons, List.append_assoc, ← hbehind, first_append]
          · rw [texts_cons, byteSize_append, ← Nat.add_assoc]
            exact hrest

/-- Pieces make up the text. -/
theorem texts_eq (h : Cut offset rs text) : texts rs = text := by
  induction h with
  | nil => rfl
  | cons _ _ ih => rw [texts_cons, ih, first_append]

/-- A piece is the first of the text from it on. -/
theorem eq_first {r : Raw} (h : Cut offset (r :: rs) text) :
    r = first offset (r.text ++ texts rs) := by
  rw [← texts_cons, h.texts_eq]
  cases h with
  | cons => rfl

theorem start_eq {r : Raw} (h : Cut offset (r :: rs) text) : r.span.start = offset := by
  cases h with
  | cons => rfl

/-- A text starts with the piece that is found there. -/
theorem of_starts {k : Option Kind} (h : Cut offset rs (s ++ t)) (hs : s ≠ [])
    (hstarts : Starts (s ++ t) s k) :
    ∃ rs', rs = ⟨k, s, ⟨offset, offset + byteSize s⟩⟩ :: rs' ∧ Cut (offset + byteSize s) rs' t := by
  generalize htext : s ++ t = text at h
  cases h with
  | nil => exact absurd (List.append_eq_nil_iff.1 htext).1 hs
  | @cons _ rs' _ hne hcut =>
      subst htext
      have hfirst : first offset (s ++ t) = ⟨k, s, ⟨offset, offset + byteSize s⟩⟩ := by
        simp only [first, hstarts.kind_eq, hstarts.length_eq, List.take_left]
      have hbehind : behindFirst (s ++ t) = t := by
        rw [behindFirst, hstarts.length_eq]
        exact List.drop_left
      rw [hfirst, hbehind] at hcut
      exact ⟨rs', by rw [hfirst], hcut⟩

/-- What matches at the start of a text is its first piece. -/
theorem of_hit {k : Kind} (h : Cut offset rs (s ++ t)) (hs : s ≠ [])
    (hhit : munch Rule.table 0 none (s ++ t) = .hit (.accept k) s.length) :
    ∃ rs', rs = ⟨some k, s, ⟨offset, offset + byteSize s⟩⟩ :: rs' ∧
      Cut (offset + byteSize s) rs' t :=
  h.of_starts hs ⟨by rw [hhit]; rfl, by rw [hhit]; rfl⟩

end Cut

/-! ## Places where a text is cut

A place inside a text is one where it is cut if a piece starts there, or if every piece that starts
before it also ends before it. -/

/-- Some of the pieces make up `s`, and `t` is cut into the others. -/
def Parted (offset : Nat) (rs : List Raw) (s t : List Char) : Prop :=
  ∃ rs₁ rs₂, rs = rs₁ ++ rs₂ ∧ texts rs₁ = s ∧ Cut (offset + byteSize s) rs₂ t

/-- **A text is cut where a piece starts.** -/
theorem Cut.parted_of_start (h : Cut offset rs (s ++ t))
    (hstart : ∃ r ∈ rs, r.span.start = offset + byteSize s) :
    Parted offset rs s t := by
  obtain ⟨r, hr, hstart⟩ := hstart
  obtain ⟨rs₁, rs₂, rfl⟩ := List.append_of_mem hr
  obtain ⟨t', htext, hcut⟩ := h.split
  have hsize : byteSize (texts rs₁) = byteSize s := by
    have := hcut.start_eq
    omega
  have hs : texts rs₁ = s := by
    have hle := isPrefix_of_byteSize_le ⟨t', htext.symm⟩ ⟨t, rfl⟩ (Nat.le_of_eq hsize.symm)
    have hge := isPrefix_of_byteSize_le ⟨t, rfl⟩ ⟨t', htext.symm⟩ (Nat.le_of_eq hsize)
    exact hge.eq_of_length_le hle.length_le
  rw [hs] at htext hcut
  rw [← List.append_cancel_left htext] at hcut
  exact ⟨rs₁, r :: rs₂, rfl, hs, hcut⟩

/-- **A text is cut where no piece reaches over.** -/
theorem Cut.parted_of_stop (h : Cut offset rs (s ++ t))
    (hstop : ∀ s', s' ≠ [] → s' <:+ s → (munch Rule.table 0 none (s' ++ t)).length ≤ s'.length) :
    Parted offset rs s t := by
  generalize htext : s ++ t = text at h
  induction h generalizing s with
  | nil =>
      obtain ⟨rfl, rfl⟩ := List.append_eq_nil_iff.1 htext
      exact ⟨[], [], rfl, rfl, .nil⟩
  | @cons offset rs text hne hcut ih =>
      subst htext
      by_cases hs : s = []
      · subst hs
        exact ⟨[], _, rfl, rfl, .cons hne hcut⟩
      · have hlen := hstop s hs List.suffix_rfl
        -- the first piece is a start of `s`, and those behind it divide the rest of `s`
        have hfirst : (first offset (s ++ t)).text =
            s.take (munch Rule.table 0 none (s ++ t)).length :=
          List.take_append_of_le_length hlen
        have hbehind : behindFirst (s ++ t) =
            s.drop (munch Rule.table 0 none (s ++ t)).length ++ t :=
          List.drop_append_of_le_length hlen
        obtain ⟨rs₁, rs₂, rfl, htexts, hrest⟩ :=
          ih (fun s' hne' hsuffix => hstop s' hne' (hsuffix.trans (List.drop_suffix _ s)))
            hbehind.symm
        refine ⟨_ :: rs₁, rs₂, rfl, ?_, ?_⟩
        · rw [texts_cons, hfirst, htexts, List.take_append_drop]
        · have hsize : (first offset (s ++ t)).span.stop +
              byteSize (s.drop (munch Rule.table 0 none (s ++ t)).length) =
              offset + byteSize s := by
            show offset + byteSize (first offset (s ++ t)).text + _ = _
            rw [hfirst, Nat.add_assoc, ← byteSize_append, List.take_append_drop]
          rwa [hsize] at hrest

end Raw

end SharpTokens
