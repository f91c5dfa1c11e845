import SharpTokens.Proofs.Text.Slices

/-!
# Line ends

`crlf` puts a carriage return before each line feed of a text. Lines stay as they are: every place
of the text is on the same line and in the same column as before (`LineIndex.position_crlf`). The
only places that are new are those between a carriage return and its line feed (`crlf_eq_append`).

The carriage return is put before the line feed, so a line ends where it did: at the line feed,
since one that follows a carriage return belongs to it. A text that already has carriage returns
before line feeds gets another one, which would be a line of its own; so the text is asked to have
none.
-/

namespace SharpTokens.Text

/-- A text with a carriage return before each line feed. -/
def crlf (cs : List Char) : List Char := cs.flatMap fun c => if c = '\n' then ['\r', '\n'] else [c]

variable {c : Char} {cs ds a b : List Char}

@[simp] theorem crlf_nil : crlf [] = [] := rfl

theorem crlf_lineFeed (cs : List Char) : crlf ('\n' :: cs) = '\r' :: '\n' :: crlf cs := rfl

theorem crlf_cons (h : c ≠ '\n') : crlf (c :: cs) = c :: crlf cs := by
  rw [crlf, List.flatMap_cons, if_neg h]
  rfl

@[simp] theorem crlf_append (cs ds : List Char) : crlf (cs ++ ds) = crlf cs ++ crlf ds :=
  List.flatMap_append

/-- Without line feeds nothing changes. -/
theorem crlf_eq_self (h : '\n' ∉ cs) : crlf cs = cs := by
  induction cs with
  | nil => rfl
  | cons c cs ih =>
      rw [List.mem_cons, not_or] at h
      rw [crlf_cons (Ne.symm h.1), ih h.2]

theorem mem_crlf_of_mem (h : c ∈ cs) : c ∈ crlf cs := by
  refine List.mem_flatMap.2 ⟨c, h, ?_⟩
  split
  · next hc => simp [hc]
  · exact List.mem_singleton_self c

/-- Nothing is added but carriage returns. -/
theorem eq_or_mem_of_mem_crlf (h : c ∈ crlf cs) : c = '\r' ∨ c ∈ cs := by
  obtain ⟨d, hd, hmem⟩ := List.mem_flatMap.1 h
  split at hmem
  · next heq =>
    simp only [List.mem_cons, List.not_mem_nil, or_false] at hmem
    exact hmem.imp_right fun hc => by rw [hc, ← heq]; exact hd
  · exact .inr (List.mem_singleton.1 hmem ▸ hd)

/-- A line feed never comes first. -/
theorem crlf_ne_lineFeed (cs ds : List Char) : crlf cs ≠ '\n' :: ds := by
  intro h
  cases cs with
  | nil => cases h
  | cons c cs =>
      by_cases hc : c = '\n'
      · subst hc
        cases h
      · rw [crlf_cons hc] at h
        exact hc (List.cons.inj h).1

/-- Different texts stay different. -/
theorem crlf_injective (h : crlf cs = crlf ds) : cs = ds := by
  induction cs generalizing ds with
  | nil =>
      cases ds with
      | nil => rfl
      | cons d ds =>
          by_cases hd : d = '\n'
          · subst hd
            cases h
          · rw [crlf_cons hd] at h
            cases h
  | cons c cs ih =>
      cases ds with
      | nil =>
          by_cases hc : c = '\n'
          · subst hc
            cases h
          · rw [crlf_cons hc] at h
            cases h
      | cons d ds =>
          by_cases hc : c = '\n'
          · by_cases hd : d = '\n'
            · subst hc hd
              rw [ih (List.cons.inj (List.cons.inj h).2).2]
            · rw [hc, crlf_lineFeed, crlf_cons hd] at h
              -- no text with carriage returns starts with a line feed alone
              exact absurd (List.cons.inj h).2.symm (crlf_ne_lineFeed ds _)
          · by_cases hd : d = '\n'
            · rw [hd, crlf_lineFeed, crlf_cons hc] at h
              exact absurd (List.cons.inj h).2 (crlf_ne_lineFeed cs _)
            · rw [crlf_cons hc, crlf_cons hd] at h
              rw [(List.cons.inj h).1, ih (List.cons.inj h).2]

/-- **What a text with carriage returns can be divided into**: two such texts, or what is before and
behind the place between a carriage return and its line feed. -/
theorem crlf_eq_append (h : crlf cs = a ++ b) :
    (∃ u s, cs = u ++ s ∧ a = crlf u ∧ b = crlf s) ∨
      ∃ u s, cs = u ++ '\n' :: s ∧ a = crlf u ++ ['\r'] ∧ b = '\n' :: crlf s := by
  induction cs generalizing a with
  | nil =>
      obtain ⟨rfl, rfl⟩ := List.append_eq_nil_iff.1 h.symm
      exact .inl ⟨[], [], rfl, rfl, rfl⟩
  | cons c cs ih =>
      cases a with
      | nil => exact .inl ⟨[], c :: cs, rfl, rfl, h.symm⟩
      | cons d a =>
          by_cases hc : c = '\n'
          · subst hc
            rw [crlf_lineFeed, List.cons_append] at h
            obtain ⟨rfl, htail⟩ := List.cons.inj h
            cases a with
            | nil => exact .inr ⟨[], cs, rfl, rfl, htail.symm⟩
            | cons e a =>
                obtain ⟨rfl, hrest⟩ := List.cons.inj htail
                rcases ih hrest with ⟨u, s, rfl, rfl, rfl⟩ | ⟨u, s, rfl, rfl, rfl⟩
                · exact .inl ⟨'\n' :: u, s, rfl, rfl, rfl⟩
                · exact .inr ⟨'\n' :: u, s, rfl, rfl, rfl⟩
          · rw [crlf_cons hc, List.cons_append] at h
            obtain ⟨rfl, htail⟩ := List.cons.inj h
            rcases ih htail with ⟨u, s, rfl, rfl, rfl⟩ | ⟨u, s, rfl, rfl, rfl⟩
            · exact .inl ⟨c :: u, s, rfl, (crlf_cons hc).symm, rfl⟩
            · exact .inr ⟨c :: u, s, rfl, by rw [crlf_cons hc]; rfl, rfl⟩

/-! ## Measures

A place of the text before and the same place behind it are compared by the bytes in front of them.
-/

theorem byteSize_le_crlf (cs : List Char) : byteSize cs ≤ byteSize (crlf cs) := by
  induction cs with
  | nil => exact Nat.le_refl 0
  | cons c cs ih =>
      by_cases hc : c = '\n'
      · subst hc
        rw [crlf_lineFeed, byteSize_cons, byteSize_cons, byteSize_cons]
        omega
      · rw [crlf_cons hc, byteSize_cons, byteSize_cons]
        omega

/-- Of two texts that start another one, none has more bytes if they are the same. -/
theorem byteSize_eq_iff_of_isPrefix {text : List Char} (ha : a <+: text) (hb : b <+: text) :
    byteSize a = byteSize b ↔ a = b := by
  refine ⟨fun h => ?_, congrArg byteSize⟩
  have hba := isPrefix_of_byteSize_le ha hb (Nat.le_of_eq h.symm)
  have hab := isPrefix_of_byteSize_le hb ha (Nat.le_of_eq h)
  exact hab.eq_of_length_le hba.length_le

/-- Two places are the same exactly if they are the same with carriage returns. -/
theorem byteSize_crlf_eq_iff {text : List Char} (ha : a <+: text) (hb : b <+: text) :
    byteSize (crlf a) = byteSize (crlf b) ↔ byteSize a = byteSize b := by
  have hcrlf : ∀ {d}, d <+: text → crlf d <+: crlf text := by
    rintro d ⟨rest, rfl⟩
    exact ⟨crlf rest, (crlf_append d rest).symm⟩
  rw [byteSize_eq_iff_of_isPrefix ha hb, byteSize_eq_iff_of_isPrefix (hcrlf ha) (hcrlf hb)]
  exact ⟨crlf_injective, congrArg crlf⟩

/-! ## Places

The place between a carriage return and its line feed is the only one that has no counterpart. -/

/-- Only two characters end lines. -/
theorem endsLine_of_ne (hfeed : c ≠ '\n') (hreturn : c ≠ '\r') (after : List Char) :
    endsLine c after = false := by
  simp [endsLine, hfeed, hreturn]

/-- A carriage return before a line feed is on the line that the line feed ends. -/
theorem placeAfter_crlf (place : Nat × Nat) {pre : List Char} (post : List Char)
    (hpre : '\r' ∉ pre) :
    placeAfter place (crlf pre) (crlf post) = placeAfter place pre post := by
  induction pre generalizing place with
  | nil => rfl
  | cons c pre ih =>
      rw [List.mem_cons, not_or] at hpre
      by_cases hc : c = '\n'
      · subst hc
        exact ih _ hpre.2
      · rw [crlf_cons hc, placeAfter, placeAfter, endsLine_of_ne hc (Ne.symm hpre.1),
          endsLine_of_ne hc (Ne.symm hpre.1)]
        exact ih _ hpre.2

/-- **Line ends do not change positions.** -/
theorem LineIndex.position_crlf {pre : List Char} (post : List Char) (hpre : '\r' ∉ pre) :
    (ofText (crlf (pre ++ post))).position (byteSize (crlf pre)) = (ofText (pre ++ post)).position
      (byteSize pre) := by
  rw [crlf_append, position_eq, position_eq, placeAfter_crlf _ _ hpre]

end SharpTokens.Text
