import SharpTokens.Lexeme.Rule

/-!
# Recognising the texts of a pattern

Reading a text one character at a time finds out whether a pattern matches it
(`Pattern.accepts_iff`). A pattern whose parts all have texts is left without any only when no text
of it goes on as the text that was read does (`Pattern.isVoid_derivs_iff`), so reading stops as soon
as it can.

What the texts of a pattern are made of is bounded by the sets in it: `Pattern.mentions` for all of
their characters, `Pattern.firsts` for the first one.

A pattern is turned into another one with each character that is read. To know when to stop, a
pattern that has no texts any more has to look like it; that holds for derivatives of patterns whose
parts all have texts (`Pattern.Reduced`), and all rules are of this kind.
-/

namespace SharpTokens

open Text (CharSet)

/-! ## Sets of characters

A set is a list of ranges of code points. The complement of a list of characters is the gaps between
them. -/

namespace Text.CharSet

variable {c d : Char} {cs : List Char}

theorem mem_single : (single d).mem c = true ↔ c = d := by
  simp only [mem, single, List.any_cons, List.any_nil, Bool.or_false, Bool.and_eq_true,
    decide_eq_true_eq, ← Char.toNat_inj]
  omega

theorem toNat_le (c : Char) : c.toNat ≤ 0x10FFFF := by
  have := c.valid
  simp only [UInt32.isValidChar, Nat.isValidChar, Char.toNat] at this ⊢
  omega

/-- What lies in the gaps between numbers in ascending order, from `lo` on, is not one of them. -/
theorem mem_gaps {lo n : Nat} (hsorted : (cs.map Char.toNat).Pairwise (· < ·))
    (hlo : ∀ c ∈ cs, lo ≤ c.toNat) :
    ((except.gaps lo cs).any fun r => r.1 ≤ n && n ≤ r.2) = true ↔
      lo ≤ n ∧ n ≤ 0x10FFFF ∧ ∀ c ∈ cs, c.toNat ≠ n := by
  induction cs generalizing lo with
  | nil => simp [except.gaps]
  | cons c cs ih =>
      rw [List.map_cons, List.pairwise_cons] at hsorted
      have hnext : ∀ d ∈ cs, c.toNat + 1 ≤ d.toNat :=
        fun d hd => hsorted.1 _ (List.mem_map_of_mem hd)
      have hc := hlo c List.mem_cons_self
      have ih := ih hsorted.2 hnext
      -- below `c`, none of the characters behind it counts
      have hbelow : n < c.toNat → ∀ d ∈ cs, d.toNat ≠ n :=
        fun hn d hd => by have := hnext d hd; omega
      have hvalid := toNat_le c
      rw [except.gaps, List.forall_mem_cons]
      split
      · rw [List.any_cons, Bool.or_eq_true, ih, Bool.and_eq_true, decide_eq_true_eq,
          decide_eq_true_eq]
        constructor
        · rintro (⟨hle, hge⟩ | ⟨hle, hge, hne⟩)
          · exact ⟨hle, by omega, by omega, hbelow (by omega)⟩
          · exact ⟨by omega, hge, by omega, hne⟩
        · rintro ⟨hle, hge, hne, hall⟩
          by_cases hn : n < c.toNat
          · exact .inl ⟨hle, by omega⟩
          · exact .inr ⟨by omega, hge, hall⟩
      · rw [ih]
        constructor
        · rintro ⟨hle, hge, hne⟩
          exact ⟨by omega, hge, by omega, hne⟩
        · rintro ⟨hle, hge, hne, hall⟩
          exact ⟨by omega, hge, hall⟩

/-- A character is in the complement of a list if it is not in the list. -/
theorem mem_except (hsorted : (cs.map Char.toNat).Pairwise (· < ·)) :
    (except cs).mem c = true ↔ c ∉ cs := by
  rw [mem, except, mem_gaps hsorted fun _ _ => Nat.zero_le _]
  constructor
  · rintro ⟨-, -, hne⟩ hc
    exact hne c hc rfl
  · exact fun hc => ⟨Nat.zero_le _, toNat_le c, fun d hd heq => hc (Char.toNat_inj.1 heq ▸ hd)⟩

end Text.CharSet

namespace Pattern

variable {p q : Pattern} {set : CharSet} {c : Char} {u w : List Char}

/-! ## Texts by the shape of a pattern

The relation is inverted once for each constructor, and for the patterns that are built of them. -/

theorem not_matches_void : ¬ Matches void u := by
  intro h
  cases h

theorem matches_empty : Matches empty u ↔ u = [] := by
  constructor
  · intro h
    cases h
    rfl
  · rintro rfl
    exact .empty

theorem matches_one : Matches (one set) u ↔ ∃ c, set.mem c = true ∧ u = [c] := by
  constructor
  · intro h
    cases h with
    | one hmem => exact ⟨_, hmem, rfl⟩
  · rintro ⟨c, hmem, rfl⟩
    exact .one hmem

theorem matches_seq : Matches (seq p q) u ↔ ∃ v w, u = v ++ w ∧ Matches p v ∧ Matches q w := by
  constructor
  · intro h
    cases h with
    | seq hp hq => exact ⟨_, _, rfl, hp, hq⟩
  · rintro ⟨v, w, rfl, hp, hq⟩
    exact .seq hp hq

theorem matches_alt : Matches (alt p q) u ↔ Matches p u ∨ Matches q u := by
  constructor
  · intro h
    cases h with
    | altLeft hp => exact .inl hp
    | altRight hq => exact .inr hq
  · rintro (hp | hq)
    · exact .altLeft hp
    · exact .altRight hq

/-- Of the repeated texts, the first one that is not empty takes the first character. -/
theorem matches_star_cons :
    Matches (star p) (c :: u) ↔ ∃ v w, u = v ++ w ∧ Matches p (c :: v) ∧ Matches (star p) w := by
  constructor
  · intro h
    generalize hr : star p = r at h
    generalize hcu : c :: u = cu at h
    induction h with
    | starNil => cases hcu
    | @starCons r v w hp hstar _ ih =>
        cases hr
        cases v with
        | nil => exact ih rfl hcu
        | cons d v =>
            cases hcu
            exact ⟨v, w, rfl, hp, hstar⟩
    | _ => cases hr
  · rintro ⟨v, w, rfl, hp, hstar⟩
    exact .starCons hp hstar

/-- A repetition of one set is a text all of whose characters are in it. -/
theorem matches_star_one : Matches (star (one set)) u ↔ ∀ c ∈ u, set.mem c = true := by
  induction u with
  | nil => simp [Matches.starNil]
  | cons c u ih =>
      rw [matches_star_cons, List.forall_mem_cons, ← ih]
      constructor
      · rintro ⟨v, w, rfl, hone, hstar⟩
        obtain ⟨d, hd, hcons⟩ := matches_one.1 hone
        cases hcons
        exact ⟨hd, hstar⟩
      · rintro ⟨hc, hstar⟩
        exact ⟨[], u, rfl, .one hc, hstar⟩

/-- The pattern of a text matches that text only. -/
theorem matches_text (s : String) : Matches (text s) u ↔ u = s.toList := by
  unfold text
  generalize s.toList = cs
  induction cs generalizing u with
  | nil => exact matches_empty
  | cons d cs ih =>
      rw [List.foldr_cons, matches_seq]
      constructor
      · rintro ⟨v, w, rfl, hv, hw⟩
        obtain ⟨c, hc, rfl⟩ := matches_one.1 hv
        rw [CharSet.mem_single.1 hc, ih.1 hw]
        rfl
      · rintro rfl
        exact ⟨[d], cs, rfl, .one (CharSet.mem_single.2 rfl), ih.2 rfl⟩

/-! ## Reading a text

The derivative of a pattern by a character leaves out parts without texts as it is built. -/

/-- Whether a pattern matches the empty text can be told from it. -/
theorem nullable_iff : p.nullable = true ↔ Matches p [] := by
  induction p with
  | void => simp [nullable, not_matches_void]
  | empty => simp [nullable, matches_empty]
  | one set => simp [nullable, matches_one]
  | seq p q ihp ihq =>
      rw [nullable, Bool.and_eq_true, ihp, ihq, matches_seq]
      constructor
      · rintro ⟨hp, hq⟩
        exact ⟨[], [], rfl, hp, hq⟩
      · rintro ⟨v, w, hvw, hp, hq⟩
        obtain ⟨rfl, rfl⟩ := List.nil_eq_append_iff.1 hvw
        exact ⟨hp, hq⟩
  | alt p q ihp ihq => simp [nullable, matches_alt, ihp, ihq]
  | star p => simp [nullable, Matches.starNil]

/-- Leaving out parts does not change the texts of a sequence. -/
theorem matches_followedBy : Matches (followedBy p q) u ↔ Matches (seq p q) u := by
  unfold followedBy
  split
  · simp [matches_seq, not_matches_void]
  · rw [matches_seq]
    constructor
    · exact fun h => ⟨[], u, rfl, .empty, h⟩
    · rintro ⟨v, w, rfl, hv, hw⟩
      rwa [matches_empty.1 hv]
  · simp [matches_seq, not_matches_void]
  · rfl

/-- Nor those of a choice. -/
theorem matches_orElse : Matches (orElse p q) u ↔ Matches (alt p q) u := by
  unfold orElse
  split
  · simp [matches_alt, not_matches_void]
  · simp [matches_alt, not_matches_void]
  · rfl

/-- The first character of two texts one after another is that of the first, unless it is empty. -/
theorem matches_seq_cons : Matches (seq p q) (c :: u) ↔
    (∃ v w, u = v ++ w ∧ Matches p (c :: v) ∧ Matches q w) ∨ Matches p [] ∧ Matches q (c :: u) := by
  rw [matches_seq]
  constructor
  · rintro ⟨v, w, hu, hp, hq⟩
    cases v with
    | nil => exact .inr ⟨hp, hu ▸ hq⟩
    | cons d v =>
        cases hu
        exact .inl ⟨v, w, rfl, hp, hq⟩
  · rintro (⟨v, w, rfl, hp, hq⟩ | ⟨hp, hq⟩)
    · exact ⟨c :: v, w, rfl, hp, hq⟩
    · exact ⟨[], c :: u, rfl, hp, hq⟩

/-- **What may follow a character.** -/
theorem matches_deriv : Matches (deriv c p) u ↔ Matches p (c :: u) := by
  induction p generalizing u with
  | void => simp [deriv, not_matches_void]
  | empty => simp [deriv, not_matches_void, matches_empty]
  | one set =>
      rw [deriv]
      split
      · next h =>
        rw [matches_empty]
        constructor
        · rintro rfl
          exact .one h
        · intro hone
          obtain ⟨d, -, hcons⟩ := matches_one.1 hone
          exact (List.cons.inj hcons).2
      · next h =>
        refine ⟨fun hvoid => absurd hvoid not_matches_void, fun hone => ?_⟩
        obtain ⟨d, hd, hcons⟩ := matches_one.1 hone
        cases hcons
        exact absurd hd h
  | seq p q ihp ihq =>
      -- the character is in the first part, or that is empty and it is in the second
      rw [deriv, matches_seq_cons, ← nullable_iff]
      split
      · next h =>
        simp only [matches_orElse, matches_alt, matches_followedBy, matches_seq, ihp, ihq, h,
          true_and]
      · next h =>
        simp only [matches_followedBy, matches_seq, ihp, h, false_and, or_false,
          Bool.false_eq_true]
  | alt p q ihp ihq => simp only [deriv, matches_orElse, matches_alt, ihp, ihq]
  | star p ih => simp only [deriv, matches_followedBy, matches_seq, matches_star_cons, ih]

def derivs (w : List Char) (p : Pattern) : Pattern := w.foldl (fun p c => p.deriv c) p

def accepts (p : Pattern) (w : List Char) : Bool := (p.derivs w).nullable

@[simp] theorem derivs_append (w w' : List Char) (p : Pattern) :
    p.derivs (w ++ w') = (p.derivs w).derivs w' :=
  List.foldl_append

/-- After `w`, what is left matches what may follow `w`. -/
theorem matches_derivs : Matches (p.derivs w) u ↔ Matches p (w ++ u) := by
  induction w generalizing p with
  | nil => rfl
  | cons c w ih => exact ih.trans matches_deriv

theorem accepts_iff : p.accepts w = true ↔ Matches p w := by
  rw [accepts, nullable_iff, matches_derivs, List.append_nil]

/-! ## Patterns whose parts all have texts

Whether a set has a character is checked at the first of its first range, so that it can be
computed. -/

/-- All parts of a pattern have texts: a set in it has a character, the first of one of its
ranges. -/
def solid : Pattern → Bool
  | void => false
  | empty => true
  | one set => set.ranges.any fun r => set.mem (Char.ofNat r.1)
  | seq p q => p.solid && q.solid
  | alt p q => p.solid && q.solid
  | star p => p.solid

/-- A pattern whose parts all have texts has one itself. -/
theorem exists_matches (h : p.solid = true) : ∃ u, Matches p u := by
  induction p with
  | void => cases h
  | empty => exact ⟨[], .empty⟩
  | one set =>
      obtain ⟨r, -, hr⟩ := List.any_eq_true.1 h
      exact ⟨_, .one hr⟩
  | seq p q ihp ihq =>
      rw [solid, Bool.and_eq_true] at h
      obtain ⟨u, hu⟩ := ihp h.1
      obtain ⟨v, hv⟩ := ihq h.2
      exact ⟨u ++ v, .seq hu hv⟩
  | alt p q ihp ihq =>
      rw [solid, Bool.and_eq_true] at h
      obtain ⟨u, hu⟩ := ihp h.1
      exact ⟨u, .altLeft hu⟩
  | star p => exact ⟨[], .starNil⟩

/-- A pattern without texts says so, and the parts of any other all have texts. -/
def Reduced (p : Pattern) : Prop := p = void ∨ p.solid = true

/-- A sequence is reduced if its first part is and the second one has texts. -/
theorem Reduced.followedBy (hp : Reduced p) (hq : q.solid = true) : Reduced (followedBy p q) := by
  unfold Pattern.followedBy
  split
  · exact .inl rfl
  · exact .inr hq
  · exact .inl rfl
  · next hvoid _ _ => exact .inr (by rw [solid, hp.resolve_left hvoid, hq]; rfl)

theorem Reduced.orElse (hp : Reduced p) (hq : Reduced q) : Reduced (orElse p q) := by
  unfold Pattern.orElse
  split
  · exact hq
  · exact hp
  · next hvoid hvoid' =>
      exact .inr (by rw [solid, hp.resolve_left hvoid, hq.resolve_left hvoid']; rfl)

/-- A derivative is void or all of its parts have texts. -/
theorem reduced_deriv (h : p.solid = true) : Reduced (deriv c p) := by
  induction p with
  | void => exact .inl rfl
  | empty => exact .inl rfl
  | one set =>
      rw [deriv]
      split
      · exact .inr rfl
      · exact .inl rfl
  | seq p q ihp ihq =>
      rw [solid, Bool.and_eq_true] at h
      rw [deriv]
      split
      · exact ((ihp h.1).followedBy h.2).orElse (ihq h.2)
      · exact (ihp h.1).followedBy h.2
  | alt p q ihp ihq =>
      rw [solid, Bool.and_eq_true] at h
      exact (ihp h.1).orElse (ihq h.2)
  | star p ih => exact (ih h).followedBy h

theorem reduced_derivs (h : p.solid = true) : Reduced (p.derivs w) := by
  suffices ∀ p, Reduced p → Reduced (p.derivs w) from this p (.inr h)
  induction w with
  | nil => exact fun _ hp => hp
  | cons c w ih =>
      rintro p (rfl | hp)
      · exact ih void (.inl rfl)
      · exact ih _ (reduced_deriv hp)

/-- **Reading stops as soon as it can:** a pattern is left without texts only when none of its texts
goes on like this. -/
theorem isVoid_derivs_iff (h : p.solid = true) :
    (p.derivs w).isVoid = false ↔ ∃ v, Matches p (w ++ v) := by
  simp only [← matches_derivs]
  rcases reduced_derivs (w := w) h with hvoid | hsolid
  · simp [hvoid, isVoid, not_matches_void]
  · have hex := exists_matches hsolid
    refine ⟨fun _ => hex, fun _ => ?_⟩
    cases hd : p.derivs w with
    | void => simp [hd, solid] at hsolid
    | _ => rfl

/-- A character of one byte is told by its leading byte. -/
theorem exists_matches_of_hasLead (h : p.solid = true) (hc : c.toNat < 0x80)
    (hlead : p.hasLead c = true) :
    ∃ v, Matches p (c :: v) := by
  induction p with
  | void => cases hlead
  | empty => cases hlead
  | one set =>
      -- a character of ASCII is its leading byte
      have hmem : set.mem c = true := by
        simp only [hasLead, CharSet.hasLead, CharSet.leadRange, hc, if_true, List.any_eq_true,
          decide_eq_true_eq, CharSet.mem, Bool.and_eq_true] at hlead ⊢
        obtain ⟨r, hr, hle⟩ := hlead
        exact ⟨r, hr, by omega, by omega⟩
      exact ⟨[], .one hmem⟩
  | seq p q ihp ihq =>
      rw [solid, Bool.and_eq_true] at h
      simp only [hasLead, Bool.or_eq_true, Bool.and_eq_true] at hlead
      rcases hlead with hlead | ⟨hnull, hlead⟩
      · obtain ⟨v, hv⟩ := ihp h.1 hlead
        obtain ⟨u, hu⟩ := exists_matches h.2
        exact ⟨v ++ u, .seq hv hu⟩
      · obtain ⟨v, hv⟩ := ihq h.2 hlead
        exact ⟨v, .seq (nullable_iff.1 hnull) hv⟩
  | alt p q ihp ihq =>
      rw [solid, Bool.and_eq_true] at h
      simp only [hasLead, Bool.or_eq_true] at hlead
      rcases hlead with hlead | hlead
      · obtain ⟨v, hv⟩ := ihp h.1 hlead
        exact ⟨v, .altLeft hv⟩
      · obtain ⟨v, hv⟩ := ihq h.2 hlead
        exact ⟨v, .altRight hv⟩
  | star p ih =>
      obtain ⟨v, hv⟩ := ih h hlead
      exact ⟨v, matches_star_cons.2 ⟨v, [], (List.append_nil v).symm, hv, .starNil⟩⟩

/-! ## Characters of a pattern

These bound what can be in a text without knowing it, and can be computed from the rules. -/

def sets : Pattern → List CharSet
  | void => []
  | empty => []
  | one set => [set]
  | seq p q => p.sets ++ q.sets
  | alt p q => p.sets ++ q.sets
  | star p => p.sets

def mentions (c : Char) : Pattern → Bool
  | void => false
  | empty => false
  | one set => set.mem c
  | seq p q => mentions c p || mentions c q
  | alt p q => mentions c p || mentions c q
  | star p => mentions c p

/-- The characters of a text are mentioned by its pattern. -/
theorem Matches.mentions (h : Matches p u) (hc : c ∈ u) : p.mentions c = true := by
  induction h with
  | empty => cases hc
  | one hmem =>
      cases List.mem_singleton.1 hc
      exact hmem
  | seq _ _ ihp ihq =>
      rw [Pattern.mentions, Bool.or_eq_true]
      exact (List.mem_append.1 hc).imp ihp ihq
  | altLeft _ ih => exact Bool.or_eq_true_iff.2 (.inl (ih hc))
  | altRight _ ih => exact Bool.or_eq_true_iff.2 (.inr (ih hc))
  | starNil => cases hc
  | starCons _ _ ihp ihstar => exact (List.mem_append.1 hc).elim ihp ihstar

/-- The sets of characters that texts of a pattern start with. -/
def firsts : Pattern → List CharSet
  | void => []
  | empty => []
  | one set => [set]
  | seq p q => p.firsts ++ if p.nullable then q.firsts else []
  | alt p q => p.firsts ++ q.firsts
  | star p => p.firsts

/-- A text that is not empty starts with a character of one of these sets. -/
theorem exists_mem_firsts (h : Matches p (c :: u)) : ∃ set ∈ p.firsts, set.mem c = true := by
  induction p generalizing u with
  | void => exact absurd h not_matches_void
  | empty => cases matches_empty.1 h
  | one set =>
      obtain ⟨d, hd, hcons⟩ := matches_one.1 h
      cases hcons
      exact ⟨set, List.mem_singleton_self set, hd⟩
  | seq p q ihp ihq =>
      rcases matches_seq_cons.1 h with ⟨v, w, -, hp, -⟩ | ⟨hnull, hq⟩
      · obtain ⟨set, hset, hc⟩ := ihp hp
        exact ⟨set, List.mem_append_left _ hset, hc⟩
      · obtain ⟨set, hset, hc⟩ := ihq hq
        rw [firsts, nullable_iff.2 hnull]
        exact ⟨set, List.mem_append_right _ hset, hc⟩
  | alt p q ihp ihq =>
      rcases matches_alt.1 h with hp | hq
      · obtain ⟨set, hset, hc⟩ := ihp hp
        exact ⟨set, List.mem_append_left _ hset, hc⟩
      · obtain ⟨set, hset, hc⟩ := ihq hq
        exact ⟨set, List.mem_append_right _ hset, hc⟩
  | star p ih =>
      obtain ⟨v, w, -, hp, -⟩ := matches_star_cons.1 h
      exact ih hp

end Pattern

/-! ## The rules spelled out

Facts about all rules are decided by going through the table. It is long, so the texts of keywords
are taken apart only once. -/

/-- All rules, with their texts taken apart into characters. It takes long to take a text apart, so
what is to be computed of all rules is computed of these. -/
def Rule.spelled : { rules : List Rule // Rule.table = rules } :=
  ⟨_, by
    simp only [table, fixedTexts, Kind.all, Kind.spellings, Pattern.text, List.flatMap_cons,
      List.flatMap_nil, List.map_cons, List.map_nil, List.foldr_cons, List.foldr_nil,
      List.cons_append, List.nil_append,
      String.reduceToList]
    rfl⟩

/-- What is checked for each of them holds of all rules. -/
theorem Rule.forall_mem_table {P : Rule → Prop} [DecidablePred P]
    (h : (spelled.val.all fun r => P r) = true) :
    ∀ r ∈ Rule.table, P r := by
  rw [spelled.property]
  simpa using h

theorem Rule.mem_table_of_varying {r : Rule} (h : r ∈ Rule.varyingTexts) : r ∈ Rule.table :=
  List.mem_append_right _ h

end SharpTokens
