import Mathlib.Data.List.Nodup
import Mathlib.Data.List.Pairwise
import Mathlib.Data.Nat.SuccPred
import Mathlib.Order.SuccPred.Archimedean
import SharpTokens.Proofs.Lexeme.LeadBytes
import SharpTokens.Proofs.Lexeme.Tiling
import SharpTokens.Proofs.Text.Slices

/-!
# Cutting by the longest match

What the pieces of a text are can be said by the rules alone (`Raw.Heads`): the longest match, of
the kind that is spelled so or that a rule gives it, or an error. An error is a match that is
refused, or it goes as far as the bytes of the text can be the start of a match (`Raw.Reaches`), up
to the end of a character (`Raw.RoundsUp`).

Reading stops at the first character that no match goes on with; how far the bytes go is seen from
the leading byte of that character (`Raw.Strays.reaches`).

The statement does not speak of derivatives or of a loop. It takes the rules as they stand in the
table: keywords and marks by their texts, everything else by its pattern.
-/

namespace SharpTokens

open Text

variable {c : Char} {w cs : List Char}

namespace Raw

open Rule (OpensBytes Solid StartsWell)

variable {rules : List Rule} {n : Nat}

/-! ## How far an error goes

The bytes that can be the start of a match are at least those of the characters that can, and at
most up to the end of the next character. -/

/-- How many bytes of a text can be the start of a match: the most there are. -/
def Reaches (rules : List Rule) (cs : List Char) (m : Nat) : Prop :=
  IsGreatest {m | m ≤ byteSize cs ∧ OpensBytes rules ((bytes cs).take m)} m

/-- The first place between characters at or behind a byte of a text, and behind the first byte. -/
def RoundsUp (cs : List Char) (m n : Nat) : Prop := IsLeast {n | max m 1 ≤ n ∧ IsBoundary cs n} n

/-- There are finitely many bytes, and none of them is a start. -/
theorem exists_reaches (h : OpensBytes rules []) (cs : List Char) : ∃ m, Reaches rules cs m :=
  BddAbove.exists_isGreatest_of_nonempty ⟨byteSize cs, fun _ hm => hm.1⟩ ⟨0, Nat.zero_le _, h⟩

theorem take_bytes_append (w cs : List Char) (k : Nat) :
    (bytes (w ++ cs)).take (byteSize w + k) = bytes w ++ (bytes cs).take k := by
  rw [bytes_append, ← length_bytes, List.take_length_add_append]

/-- Bytes that start a match are within reach. -/
theorem Reaches.le_of_opens {m k : Nat} (h : Reaches rules (w ++ cs) m)
    (hk : k ≤ byteSize cs) (hopens : OpensBytes rules (bytes w ++ (bytes cs).take k)) :
    byteSize w + k ≤ m := by
  refine h.2 ⟨?_, ?_⟩
  · rw [byteSize_append]
    omega
  · rwa [take_bytes_append]

/-- What is within reach starts a match. -/
theorem Reaches.opens_of_le {m k : Nat} (h : Reaches rules (w ++ cs) m) (hk : byteSize w + k ≤ m) :
    OpensBytes rules (bytes w ++ (bytes cs).take k) := by
  have hprefix : (bytes (w ++ cs)).take (byteSize w + k) <+: (bytes (w ++ cs)).take m :=
    List.take_prefix_take_left hk
  rw [take_bytes_append] at hprefix
  exact h.1.2.of_isPrefix hprefix

/-- The bytes of a character that no match goes on with are not all among those that can be the
start of a match. -/
theorem Reaches.lt_of_not_opens {m : Nat} (h : Reaches rules (w ++ c :: cs) m)
    (hnot : ¬ Rule.Opens rules (w ++ [c])) :
    m < byteSize (w ++ [c]) := by
  refine Nat.lt_of_not_le fun hge => hnot (Rule.opensBytes_bytes.1 ?_)
  have hopens := h.opens_of_le (k := c.utf8Size) (by simpa using hge)
  rwa [bytes_cons, ← String.length_utf8EncodeChar, List.take_left,
    ← List.append_nil (String.utf8EncodeChar c), ← bytes_nil, ← bytes_cons,
    ← bytes_append] at hopens

/-- The first byte of a character is among those that can be the start of a match if some rule goes
on with it. -/
theorem Reaches.any_hasLead_iff {m : Nat} (h : Reaches rules (w ++ c :: cs) m)
    (hsolid : Solid rules) (hsets : StartsWell rules) :
    (left rules w).any (·.pattern.hasLead c) = true ↔ byteSize w + 1 ≤ m := by
  obtain ⟨more, hmore⟩ := utf8EncodeChar_eq_cons c
  have hone : (bytes (c :: cs)).take 1 = [leadByte c] := by
    rw [bytes_cons, hmore]
    rfl
  rw [any_hasLead_left hsolid hsets, ← hone]
  refine ⟨h.le_of_opens ?_, h.opens_of_le⟩
  have hpos := c.utf8Size_pos
  rw [byteSize_cons]
  omega

/-- Behind some characters the next place is that behind one more. -/
theorem le_of_isBoundary {k : Nat} (h : IsBoundary (w ++ c :: cs) k) (hlt : byteSize w < k) :
    byteSize (w ++ [c]) ≤ k := by
  obtain ⟨pre, post, heq, rfl⟩ := h
  obtain ⟨more, rfl⟩ := isPrefix_of_byteSize_le ⟨post, heq.symm⟩ ⟨c :: cs, rfl⟩ (Nat.le_of_lt hlt)
  rw [List.append_assoc] at heq
  cases more with
  | nil => simp at hlt
  | cons d more =>
      cases List.append_cancel_left heq
      simp only [byteSize_append, byteSize_cons, byteSize_nil]
      omega

/-- **An error ends where the bytes that can be the start of a match end**, or behind the character
that they end in. -/
theorem Strays.reaches (h : Strays rules cs n) (hsolid : Solid rules) (hsets : StartsWell rules)
    (hne : cs ≠ []) :
    ∃ m, Reaches rules cs m ∧ RoundsUp cs m (byteSize (cs.take n)) := by
  obtain ⟨w, rest, rfl, hopens, hend⟩ := h
  have hbytes : OpensBytes rules (bytes w ++ (bytes rest).take 0) := by
    rw [List.take_zero, List.append_nil]
    exact Rule.opensBytes_bytes.2 hopens
  obtain ⟨m, hm⟩ := exists_reaches (hbytes.of_isPrefix List.nil_prefix) (w ++ rest)
  have hle : byteSize w ≤ m := hm.le_of_opens (Nat.zero_le _) hbytes
  refine ⟨m, hm, ?_⟩
  rcases hend with ⟨rfl, rfl⟩ | ⟨c, tail, rfl, hnot, rfl⟩
  · -- the whole text is the start of a match
    rw [List.append_nil] at hm hne ⊢
    have hpos := byteSize_pos hne
    have htake : w.take (max w.length 1) = w := List.take_of_length_le (Nat.le_max_left _ _)
    have hmle := hm.1.1
    rw [htake]
    exact ⟨⟨by omega, w, [], (List.append_nil w).symm, rfl⟩, fun k hk => by have := hk.1; omega⟩
  · have hlt := hm.lt_of_not_opens hnot
    have hlead := hm.any_hasLead_iff hsolid hsets
    split
    · next hreach =>
      rw [hlead] at hreach
      have htake : (w ++ c :: tail).take (w.length + 1) = w ++ [c] := by
        rw [List.append_cons, ← List.length_singleton (a := c), ← List.length_append,
          List.take_left]
      have hover : byteSize w < max m 1 := by
        rcases hreach with rfl | hreach
        · exact Nat.le_max_right _ _
        · exact Nat.lt_of_lt_of_le hreach (Nat.le_max_left _ _)
      have hpos : 0 < byteSize (w ++ [c]) := byteSize_pos (by simp)
      rw [htake]
      refine ⟨⟨by omega, w ++ [c], tail, by simp, rfl⟩, fun k hk => ?_⟩
      exact le_of_isBoundary hk.2 (Nat.lt_of_lt_of_le hover hk.1)
    · next hstop =>
      rw [hlead, not_or] at hstop
      have hpos := byteSize_pos hstop.1
      rw [List.take_left]
      exact ⟨⟨by omega, w, c :: tail, rfl, rfl⟩, fun k hk => by have := hk.1; omega⟩

/-! ## Pieces

A text with a fixed spelling is of the kind that is spelled so, even where a pattern matches it too,
since keywords come first in the table. -/

/-- No longer text at the start of `rest` matches a rule. -/
def NoLonger (rest text : List Char) : Prop :=
  ∀ r ∈ Rule.table, ∀ longer, longer <+: rest → text.length < longer.length →
    ¬ r.pattern.Matches longer

/-- What the first piece of a text is, by the rules alone. -/
inductive Heads (rest text : List Char) : Option Kind → Prop
  /-- a lexeme: a longest match, of the kind that is spelled so if there is one -/
  | lexeme {r : Rule} {k : Kind} : r ∈ Rule.table → r.outcome = .accept k → r.pattern.Matches text →
      NoLonger rest text → (∀ k', ∀ s ∈ k'.spellings, text = s.toList → k = k') →
      Heads rest text (some k)
  /-- an error: the longest match is a string that is not closed, and nothing else -/
  | refused : Rule.openString.Matches text → NoLonger rest text →
      (∀ r ∈ Rule.table, r.pattern.Matches text → r.outcome = .refuse) → Heads rest text none
  /-- an error: there is no match, and the text goes as far as bytes can be the start of one -/
  | stray {m : Nat} : NoLonger rest [] → Reaches Rule.table rest m →
      RoundsUp rest m (byteSize text) →
      Heads rest text none

/-- Behind the longest match there is no longer one. -/
theorem noLonger_of_best {o : Outcome} (h : Best Rule.table cs (some (o, n))) :
    NoLonger cs (cs.take n) := by
  obtain ⟨-, hle, -, hlonger⟩ := h
  intro r hr longer hprefix hlt
  rw [List.length_take, Nat.min_eq_left hle] at hlt
  rw [List.prefix_iff_eq_take.1 hprefix]
  exact Rule.outcomeOf_eq_none_iff.1 (hlonger _ hlt hprefix.length_le) r hr

end Raw

theorem Kind.mem_all (k : Kind) : k ∈ Kind.all := by
  cases k <;> decide

/-- A text is the spelling of one kind only. -/
theorem Kind.eq_of_spelling {k k' : Kind} {s : String} (h : s ∈ k.spellings)
    (h' : s ∈ k'.spellings) : k = k' := by
  have hnodup : (Kind.all.flatMap Kind.spellings).Nodup := by decide +kernel
  by_contra hne
  have hapart : Kind.all.Pairwise (Function.onFun List.Disjoint Kind.spellings) :=
    (List.nodup_flatMap.1 hnodup).2
  have : Std.Symm (Function.onFun List.Disjoint Kind.spellings) :=
    ⟨fun _ _ hdisjoint _ h h' => hdisjoint h' h⟩
  exact hapart.forall k.mem_all k'.mem_all hne h h'

namespace Rule

/-- The rules of keywords and marks, one for each spelling. -/
theorem mem_fixedTexts {r : Rule} :
    r ∈ fixedTexts ↔ ∃ k, ∃ s ∈ k.spellings, r = ⟨.accept k, .text s⟩ := by
  simp only [fixedTexts, List.mem_flatMap, List.mem_map]
  constructor
  · rintro ⟨k, -, s, hs, rfl⟩
    exact ⟨k, s, hs, rfl⟩
  · rintro ⟨k, s, hs, rfl⟩
    exact ⟨k, k.mem_all, s, hs, rfl⟩

/-- **A spelling is of its own kind**, whatever else it matches: keywords and marks come first. -/
theorem outcomeOf_spelling {k : Kind} {s : String} (h : s ∈ k.spellings) :
    outcomeOf table s.toList = some (.accept k) := by
  cases hfind : fixedTexts.find? (·.pattern.accepts s.toList) with
  | none =>
      have hmem : (⟨.accept k, .text s⟩ : Rule) ∈ fixedTexts := mem_fixedTexts.2 ⟨k, s, h, rfl⟩
      have hnot := List.find?_eq_none.1 hfind _ hmem
      exact absurd (Pattern.accepts_iff.2 ((Pattern.matches_text s).2 rfl)) hnot
  | some r =>
      obtain ⟨k', s', hs', rfl⟩ := mem_fixedTexts.1 (List.mem_of_find?_eq_some hfind)
      have haccepts : (Pattern.text s').accepts s.toList = true := by
        simpa using List.find?_some hfind
      have hs : s = s' :=
        String.toList_inj.1 ((Pattern.matches_text s').1 (Pattern.accepts_iff.1 haccepts))
      subst hs
      rw [outcomeOf, table, List.find?_append, hfind, Kind.eq_of_spelling h hs']
      rfl

/-- Only a string that is not closed is refused. -/
theorem eq_openString_of_refuse {r : Rule} (hr : r ∈ table) (h : r.outcome = .refuse) :
    r.pattern = openString := by
  have hall : ∀ r ∈ table, r.outcome = .refuse → r.pattern = openString :=
    forall_mem_table (by decide)
  exact hall r hr h

/-- What is refused is no lexeme: the rules before that of an open string do not match it, and those
behind go on after a quote in another way. -/
theorem refuse_of_matches {r : Rule} (h : outcomeOf table w = some .refuse) (hr : r ∈ table)
    (hmatches : r.pattern.Matches w) : r.outcome = .refuse := by
  -- the rules up to the one that refuses, and those behind it
  let front := fixedTexts ++ varyingTexts.take 8
  have htable : table = front ++ varyingTexts.drop 8 := by
    rw [List.append_assoc, List.take_append_drop, table]
  have hfront : ∀ r ∈ front, r.outcome ≠ .refuse := by decide +kernel
  have hback : ∀ r ∈ varyingTexts.drop 8, r.outcome ≠ .refuse →
      (r.pattern.derivs ['"']).nullable = false ∧
      ∀ s ∈ (r.pattern.derivs ['"']).firsts, ∀ t ∈ (openString.derivs ['"']).firsts,
      s.meets t = false := by
    decide +kernel
  obtain ⟨r₀, hr₀, ho, hopen⟩ := exists_of_outcomeOf h
  rw [eq_openString_of_refuse hr₀ ho] at hopen
  rw [htable] at hr
  rcases List.mem_append.1 hr with hr | hr
  · exfalso
    -- a rule in front would have been found first, and then nothing is refused
    cases hfind : front.find? (·.pattern.accepts w) with
    | none => exact List.find?_eq_none.1 hfind r hr (Pattern.accepts_iff.2 hmatches)
    | some r₁ =>
        rw [outcomeOf, htable, List.find?_append, hfind] at h
        exact hfront r₁ (List.mem_of_find?_eq_some hfind) (Option.some.inj h)
  · by_contra hne
    obtain ⟨hnull, hmeet⟩ := hback r hr hne
    -- behind the quote no character goes on both in an open string and in another one
    obtain ⟨u, v, rfl, hquote, -⟩ := Pattern.matches_seq.1 hopen
    obtain rfl : u = ['"'] := (Pattern.matches_text "\"").1 hquote
    rw [← Pattern.matches_derivs] at hopen hmatches
    cases v with
    | nil =>
        rw [Pattern.nullable_iff.2 hmatches] at hnull
        cases hnull
    | cons c v =>
        obtain ⟨s, hs, hc⟩ := Pattern.exists_mem_firsts hmatches
        obtain ⟨t, ht, hc'⟩ := Pattern.exists_mem_firsts hopen
        have hnone := hmeet s hs t ht
        rw [CharSet.meets_of_mem hc hc'] at hnone
        cases hnone

end Rule

namespace Raw

/-- **What a text starts with is found by the longest match.** -/
theorem heads_first (hne : cs ≠ []) (offset : Nat) :
    Heads cs (first offset cs).text (first offset cs).kind := by
  have hright := munch_spec cs
  cases hfound : munch Rule.table 0 none cs with
  | miss n =>
      rw [hfound] at hright
      obtain ⟨hnone, hstrays⟩ := hright
      obtain ⟨m, hreaches, hrounds⟩ := hstrays.reaches Rule.solid_table Rule.startsWell_table hne
      simp only [first, hfound, Found.kind, Found.length]
      refine .stray (fun r hr longer hprefix hpos => ?_) hreaches hrounds
      rw [List.prefix_iff_eq_take.1 hprefix]
      exact Rule.outcomeOf_eq_none_iff.1 (hnone _ hpos hprefix.length_le) r hr
  | hit o n =>
      rw [hfound] at hright
      have hbest : Best Rule.table cs (some (o, n)) := hright
      obtain ⟨r, hr, ho, hmatches⟩ := Rule.exists_of_outcomeOf hbest.2.2.1
      have hlonger := noLonger_of_best hbest
      simp only [first, hfound, Found.length]
      cases o with
      | accept k =>
          -- a text with a fixed spelling is of the kind that is spelled so
          refine .lexeme hr ho hmatches hlonger fun k' s hs heq => ?_
          have houtcome := hbest.2.2.1
          rw [heq, Rule.outcomeOf_spelling hs] at houtcome
          cases houtcome
          rfl
      | refuse =>
          rw [Rule.eq_openString_of_refuse hr ho] at hmatches
          exact .refused hmatches hlonger fun r' hr' hmatches' => Rule.refuse_of_matches hbest.2.2.1
            hr' hmatches'

/-- Each piece of a text is the first one of what is left of it. -/
theorem Cut.heads {rs : List Raw} {offset : Nat} {text : List Char} (h : Cut offset rs text)
    (pre : List Char) (hoffset : offset = byteSize pre) {r : Raw} (hr : r ∈ rs) :
    ∃ before rest, pre ++ text = before ++ (r.text ++ rest) ∧
      r.span = ⟨byteSize before, byteSize before + byteSize r.text⟩ ∧
      Heads (r.text ++ rest) r.text r.kind := by
  induction h generalizing pre with
  | nil => cases hr
  | @cons offset rs text hne _ ih =>
      rcases List.mem_cons.1 hr with rfl | hr
      · refine ⟨pre, behindFirst text, by rw [first_append], by rw [← hoffset]; rfl, ?_⟩
        rw [first_append]
        exact heads_first hne offset
      · have hstop : (first offset text).span.stop =
            byteSize (pre ++ (first offset text).text) := by
          rw [byteSize_append, ← hoffset]
          rfl
        have hrest := ih _ hstop hr
        rwa [List.append_assoc, first_append] at hrest

/-- **A text is cut by the longest match.** Its pieces make up the text, and each of them is what
the rules say of the text from there on: the longest match, as a lexeme of the kind that is spelled
so or of another one that matches, as an error if it is refused, or an error as far as bytes can be
the start of a match if there is none. -/
theorem cuts_longest_matches (text : List Char) : Tiled 0 (ofText text) text ∧
    ∀ r ∈ ofText text, ∃ before rest, text = before ++ (r.text ++ rest) ∧
      r.span = ⟨byteSize before, byteSize before + byteSize r.text⟩ ∧
      Heads (r.text ++ rest) r.text r.kind :=
  ⟨tiled_ofText text, fun _ hr => (cut_ofText text).heads [] rfl hr⟩

/-- A no-break space has the leading byte of characters that go on a name after `@`, so it is part
of the error. -/
theorem cuts_longest_matches_lead :
    (⟨none, ['@', '\u00a0'], ⟨0, 3⟩⟩ : Raw) ∈ ofText ['@', '\u00a0', '"', 'a'] ∧
      ∃ before rest, ['@', '\u00a0', '"', 'a'] = before ++ (['@', '\u00a0'] ++ rest) ∧
        (⟨0, 3⟩ : Span) = ⟨byteSize before, byteSize before + byteSize ['@', '\u00a0']⟩ ∧
          Heads (['@', '\u00a0'] ++ rest) ['@', '\u00a0'] none := by
  have hmem : (⟨none, ['@', '\u00a0'], ⟨0, 3⟩⟩ : Raw) ∈ ofText ['@', '\u00a0', '"', 'a'] := by
    decide +kernel
  exact ⟨hmem, (cuts_longest_matches _).2 _ hmem⟩

end Raw

end SharpTokens
