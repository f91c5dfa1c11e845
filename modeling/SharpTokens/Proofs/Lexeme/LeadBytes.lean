import SharpTokens.Proofs.Lexeme.LongestMatch
import SharpTokens.Proofs.Text.Bytes

/-!
# Matching by bytes

Texts are read byte by byte, so a match may go on into a character of which only the first byte
fits. A leading byte stands for the characters of one block of code points (`Text.leadByte_eq_iff`),
and a set of characters, a pattern and the rules that are left know whether some character of the
block goes on a match (`CharSet.hasLead_iff`, `Pattern.hasLead_iff`, `Raw.any_hasLead_left`).

Bytes come in only here and where errors are cut: everything else is about characters. Whether a
set has a character of a block is decided on ranges of code points, which is right if each range
starts with a character, and those of the rules do (`Rule.startsWell_table`).
-/

namespace SharpTokens

open Text

variable {c d : Char} {w : List Char}

namespace Text

/-! ## Leading bytes

One byte for each block: all of ASCII has blocks of one, and the longer encodings have blocks of 64
and more. -/

def leadByte (c : Char) : UInt8 := (String.utf8EncodeChar c).headD 0

/-- A character has at least one byte. -/
theorem utf8EncodeChar_eq_cons (c : Char) :
    ∃ more, String.utf8EncodeChar c = leadByte c :: more := by
  have hpos : 0 < (String.utf8EncodeChar c).length := by
    rw [String.length_utf8EncodeChar]
    exact c.utf8Size_pos
  obtain ⟨b, more, heq⟩ := List.exists_cons_of_length_pos hpos
  exact ⟨more, by rw [leadByte, heq]; rfl⟩

/-- The first byte of a character as a number: it says how many there are, and has the highest
digits. -/
theorem toNat_leadByte (c : Char) : (leadByte c).toNat =
    if c.toNat < 0x80 then c.toNat
    else if c.toNat < 0x800 then c.toNat / 0x40 + 0xC0
    else if c.toNat < 0x10000 then c.toNat / 0x1000 + 0xE0
    else c.toNat / 0x40000 + 0xF0 := by
  have hmax := CharSet.toNat_le c
  have htoNat : ∀ n < 256, (UInt8.ofNat n).toNat = n := fun n hn => UInt8.toNat_ofNat_of_lt' hn
  rw [leadByte, String.utf8EncodeChar.eq_1]
  simp only [Char.toNat] at hmax ⊢
  generalize c.val.toNat = n at hmax ⊢
  by_cases h1 : n < 0x80
  · rw [if_pos (by omega), if_pos h1]
    exact htoNat _ (by omega)
  rw [if_neg (by omega), if_neg h1]
  by_cases h2 : n < 0x800
  · rw [if_pos (by omega), if_pos h2]
    exact (htoNat _ (by omega)).trans (by omega)
  rw [if_neg (by omega), if_neg h2]
  by_cases h3 : n < 0x10000
  · rw [if_pos (by omega), if_pos h3]
    exact (htoNat _ (by omega)).trans (by omega)
  · rw [if_neg (by omega), if_neg h3]
    exact (htoNat _ (by omega)).trans (by omega)

/-- **A leading byte stands for a block of code points.** -/
theorem leadByte_eq_iff : leadByte d = leadByte c ↔
    (CharSet.leadRange c).1 ≤ d.toNat ∧ d.toNat ≤ (CharSet.leadRange c).2 := by
  have hc := CharSet.toNat_le c
  have hd := CharSet.toNat_le d
  rw [← UInt8.toNat_inj, toNat_leadByte, toNat_leadByte, CharSet.leadRange]
  grind

/-- The first code point of the block is a character. -/
theorem isValidChar_leadRange (c : Char) : (CharSet.leadRange c).1.isValidChar := by
  have hmax := CharSet.toNat_le c
  simp only [CharSet.leadRange, Nat.isValidChar]
  grind

/-- Every range of a set starts with a character. -/
def CharSet.startsWell (s : CharSet) : Bool := s.ranges.all fun r => r.1.isValidChar

/-- **A set has a character with a leading byte if a range of it meets the block of that byte.** -/
theorem CharSet.hasLead_iff {s : CharSet} (h : s.startsWell = true) :
    s.hasLead c = true ↔ ∃ d, s.mem d = true ∧ leadByte d = leadByte c := by
  simp only [hasLead, mem, List.any_eq_true, decide_eq_true_eq, Bool.and_eq_true, leadByte_eq_iff]
  constructor
  · rintro ⟨r, hr, hmeet⟩
    -- where the two start to overlap there is a character
    have hvalid : (max r.1 (leadRange c).1).isValidChar := by
      rcases Nat.le_total r.1 (leadRange c).1 with hle | hle
      · rw [Nat.max_eq_right hle]
        exact isValidChar_leadRange c
      · rw [Nat.max_eq_left hle]
        simpa using List.all_eq_true.1 h r hr
    obtain ⟨d, hd⟩ : ∃ d : Char, d.toNat = max r.1 (leadRange c).1 := ⟨.ofNatAux _ hvalid, rfl⟩
    exact ⟨d, ⟨r, hr, by omega⟩, by omega⟩
  · rintro ⟨d, ⟨r, hr, hmem⟩, hlead⟩
    exact ⟨r, hr, by omega⟩

end Text

/-! ## Patterns by bytes

Derivatives have no sets that the pattern does not have, so what is true of the sets of a pattern
stays true while a text is read. -/

namespace Pattern

variable {p q : Pattern}

theorem sets_followedBy : (followedBy p q).sets ⊆ p.sets ++ q.sets := by
  unfold followedBy
  split <;> simp [sets]

theorem sets_orElse : (orElse p q).sets ⊆ p.sets ++ q.sets := by
  unfold orElse
  split <;> simp [sets]

/-- A derivative brings no new sets of characters. -/
theorem sets_deriv : (deriv c p).sets ⊆ p.sets := by
  induction p with
  | void => exact List.nil_subset _
  | empty => exact List.nil_subset _
  | one set =>
      rw [deriv]
      split <;> exact List.nil_subset _
  | seq p q ihp ihq =>
      have hfollowed : (followedBy (deriv c p) q).sets ⊆ p.sets ++ q.sets :=
        List.Subset.trans sets_followedBy
          (List.append_subset.2 ⟨List.subset_append_of_subset_left _ ihp, by simp⟩)
      rw [deriv, sets]
      split
      · exact List.Subset.trans sets_orElse
          (List.append_subset.2 ⟨hfollowed, List.subset_append_of_subset_right _ ihq⟩)
      · exact hfollowed
  | alt p q ihp ihq =>
      refine List.Subset.trans sets_orElse (List.append_subset.2 ⟨?_, ?_⟩)
      · exact List.subset_append_of_subset_left _ ihp
      · exact List.subset_append_of_subset_right _ ihq
  | star p ih =>
      exact List.Subset.trans sets_followedBy (List.append_subset.2 ⟨ih, List.Subset.refl _⟩)

theorem sets_derivs : (p.derivs w).sets ⊆ p.sets := by
  induction w generalizing p with
  | nil => exact List.Subset.refl _
  | cons c w ih => exact List.Subset.trans ih sets_deriv

/-- **A leading byte goes on a text of a pattern if the pattern says so.** -/
theorem hasLead_iff (h : p.solid = true) (hsets : ∀ set ∈ p.sets, set.startsWell = true) :
    p.hasLead c = true ↔ ∃ d v, leadByte d = leadByte c ∧ Matches p (d :: v) := by
  induction p with
  | void => cases h
  | empty =>
      simp only [hasLead, Bool.false_eq_true, false_iff, not_exists, not_and, matches_empty]
      exact fun _ _ _ => List.cons_ne_nil _ _
  | one set =>
      rw [hasLead, CharSet.hasLead_iff (hsets set (by simp [sets]))]
      constructor
      · rintro ⟨d, hmem, hlead⟩
        exact ⟨d, [], hlead, .one hmem⟩
      · rintro ⟨d, v, hlead, hmatches⟩
        obtain ⟨_, hmem, heq⟩ := matches_one.1 hmatches
        cases heq
        exact ⟨d, hmem, hlead⟩
  | seq p q ihp ihq =>
      rw [solid, Bool.and_eq_true] at h
      simp only [sets, List.mem_append] at hsets
      rw [hasLead, Bool.or_eq_true, Bool.and_eq_true, ihp h.1 fun set hset => hsets set (.inl hset),
        ihq h.2 fun set hset => hsets set (.inr hset), nullable_iff]
      constructor
      · rintro (⟨d, v, hlead, hv⟩ | ⟨hnull, d, v, hlead, hv⟩)
        · -- the second part has a text, since no part is void
          obtain ⟨u, hu⟩ := exists_matches h.2
          exact ⟨d, v ++ u, hlead, .seq hv hu⟩
        · exact ⟨d, v, hlead, .seq hnull hv⟩
      · rintro ⟨d, v, hlead, hv⟩
        rcases matches_seq_cons.1 hv with ⟨u, u', -, hu, -⟩ | ⟨hnull, hu⟩
        · exact .inl ⟨d, u, hlead, hu⟩
        · exact .inr ⟨hnull, d, v, hlead, hu⟩
  | alt p q ihp ihq =>
      rw [solid, Bool.and_eq_true] at h
      simp only [sets, List.mem_append] at hsets
      rw [hasLead, Bool.or_eq_true, ihp h.1 fun set hset => hsets set (.inl hset),
        ihq h.2 fun set hset => hsets set (.inr hset)]
      simp only [matches_alt, and_or_left, exists_or]
  | star p ih =>
      rw [hasLead, ih h hsets]
      constructor
      · rintro ⟨d, v, hlead, hv⟩
        exact ⟨d, v, hlead, matches_star_cons.2 ⟨v, [], (List.append_nil v).symm, hv, .starNil⟩⟩
      · rintro ⟨d, v, hlead, hv⟩
        obtain ⟨u, u', -, hu, -⟩ := matches_star_cons.1 hv
        exact ⟨d, u, hlead, hu⟩

end Pattern

/-! ## Rules by bytes

A text of bytes starts a match if the bytes of some match start with it. For whole characters this
says the same as `Raw.Opens`. -/

namespace Rule

variable {rules : List Rule} {b b' : Bytes}

/-- Every range in the pattern of a rule starts with a character. -/
def StartsWell (rules : List Rule) : Prop :=
  ∀ r ∈ rules, ∀ set ∈ r.pattern.sets, set.startsWell = true

theorem startsWell_table : StartsWell table := forall_mem_table (by decide)

/-- Some rule matches a text whose bytes start with `b`. -/
def OpensBytes (rules : List Rule) (b : Bytes) : Prop :=
  ∃ r ∈ rules, ∃ u, r.pattern.Matches u ∧ b <+: bytes u

/-- Fewer bytes start the same match. -/
theorem OpensBytes.of_isPrefix (h : OpensBytes rules b) (hb : b' <+: b) : OpensBytes rules b' := by
  obtain ⟨r, hr, u, hu, hprefix⟩ := h
  exact ⟨r, hr, u, hu, hb.trans hprefix⟩

/-- The bytes of characters start a match exactly if the characters do. -/
theorem opensBytes_bytes : OpensBytes rules (bytes w) ↔ Opens rules w := by
  constructor
  · rintro ⟨r, hr, u, hu, hprefix⟩
    rw [← List.append_nil (bytes w)] at hprefix
    obtain ⟨v, rfl, -⟩ := exists_of_bytes_prefix hprefix
    exact ⟨r, hr, v, hu⟩
  · rintro ⟨r, hr, v, hv⟩
    exact ⟨r, hr, w ++ v, hv, bytes v, (bytes_append w v).symm⟩

/-- The first byte of a character goes on a match where a character with that first byte does. -/
theorem opensBytes_leadByte : OpensBytes rules (bytes w ++ [leadByte c]) ↔
    ∃ d, leadByte d = leadByte c ∧ Opens rules (w ++ [d]) := by
  constructor
  · rintro ⟨r, hr, u, hu, hprefix⟩
    obtain ⟨v, rfl, hlead⟩ := exists_of_bytes_prefix hprefix
    cases v with
    | nil =>
        rw [bytes_nil] at hlead
        cases List.prefix_nil.1 hlead
    | cons d v =>
        obtain ⟨more, hmore⟩ := utf8EncodeChar_eq_cons d
        rw [bytes_cons, hmore, List.cons_append, List.cons_prefix_cons] at hlead
        exact ⟨d, hlead.1.symm, r, hr, v, by rwa [List.append_assoc]⟩
  · rintro ⟨d, hlead, hopens⟩
    obtain ⟨more, hmore⟩ := utf8EncodeChar_eq_cons d
    refine (opensBytes_bytes.2 hopens).of_isPrefix ⟨more, ?_⟩
    rw [bytes_append, bytes_cons, bytes_nil, hmore, ← hlead]
    simp

end Rule

namespace Raw

open Rule (OpensBytes Solid StartsWell)

variable {rules : List Rule}

/-- The rules that are left know which leading bytes go on a match. -/
theorem any_hasLead_left (h : Solid rules) (hsets : StartsWell rules) :
    (left rules w).any (·.pattern.hasLead c) = true ↔
      OpensBytes rules (bytes w ++ [leadByte c]) := by
  -- for one rule, as long as it has texts left
  have hrule : ∀ r ∈ rules, (r.pattern.derivs w).isVoid = false →
      ((r.pattern.derivs w).hasLead c = true ↔
        ∃ d v, leadByte d = leadByte c ∧ r.pattern.Matches (w ++ [d] ++ v)) := by
    intro r hr hvoid
    have hsolid : (r.pattern.derivs w).solid = true := by
      refine (Pattern.reduced_derivs (h r hr)).resolve_left fun heq => ?_
      rw [heq] at hvoid
      cases hvoid
    rw [Pattern.hasLead_iff hsolid fun set hset => hsets r hr set (Pattern.sets_derivs hset)]
    simp only [Pattern.matches_derivs, List.append_assoc, List.singleton_append]
  rw [Rule.opensBytes_leadByte, List.any_eq_true]
  constructor
  · rintro ⟨r', hr', hlead⟩
    obtain ⟨r, hr, hsome⟩ := List.mem_filterMap.1 hr'
    obtain ⟨hvoid, heq⟩ := Option.ite_none_left_eq_some.1 hsome
    cases heq
    obtain ⟨d, v, hd, hv⟩ := (hrule r hr (by simpa using hvoid)).1 hlead
    exact ⟨d, hd, r, hr, v, hv⟩
  · rintro ⟨d, hd, r, hr, v, hv⟩
    have hvoid : (r.pattern.derivs w).isVoid = false :=
      (Pattern.isVoid_derivs_iff (h r hr)).2 ⟨[d] ++ v, by rwa [← List.append_assoc]⟩
    refine ⟨⟨r.outcome, r.pattern.derivs w⟩, List.mem_filterMap.2 ⟨r, hr, ?_⟩,
      (hrule r hr hvoid).2 ⟨d, v, hd, hv⟩⟩
    rw [hvoid]
    rfl

end Raw

end SharpTokens
