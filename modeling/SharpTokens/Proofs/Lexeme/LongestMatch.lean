import Mathlib.Data.List.Basic
import SharpTokens.Lexeme.Raw
import SharpTokens.Proofs.Lexeme.Patterns

/-!
# The longest match

What is found at the start of a text is the longest text that some rule matches, and the first such
rule says what it is; only where no rule matches anything is it an error (`Raw.munch_spec`). So
whatever is found is a text with which some match starts, up to its last character
(`Raw.opens_of_munch`).

Blanks and directives are told by their first character, since no other rule matches a text that
starts with it (`Raw.munch_blanks`, `Raw.munch_directive`).

The reader keeps the rules that are left and the longest match so far. The rules left after a text
are the derivatives of all rules by it (`Raw.step_left`), so the one that accepts is the first rule
that matches the text (`Raw.accepting_left`), and none is left exactly if no match starts with the
text (`Raw.left_eq_nil_iff`). The induction is on what is still to be read, with the part that was
read as a parameter.
-/

namespace SharpTokens

open Text (CharSet)

variable {rules : List Rule} {c : Char} {w cs : List Char} {o : Outcome} {n : Nat}

/-! ## What rules say of a text

Rules are tried in their order, and the first that matches gives the outcome. -/

namespace Rule

def outcomeOf (rules : List Rule) (w : List Char) : Option Outcome :=
  (rules.find? (·.pattern.accepts w)).map (·.outcome)

/-- Some rule matches a text that starts with `w`. -/
def Opens (rules : List Rule) (w : List Char) : Prop := ∃ r ∈ rules, ∃ v, r.pattern.Matches (w ++ v)

/-- Every rule has texts, and so has every part of its pattern. -/
def Solid (rules : List Rule) : Prop := ∀ r ∈ rules, r.pattern.solid = true

theorem solid_table : Solid table := forall_mem_table (by decide)

/-- An outcome comes from a rule that matches. -/
theorem exists_of_outcomeOf (h : outcomeOf rules w = some o) :
    ∃ r ∈ rules, r.outcome = o ∧ r.pattern.Matches w := by
  obtain ⟨r, hfind, rfl⟩ := Option.map_eq_some_iff.1 h
  have haccepts : r.pattern.accepts w = true := by simpa using List.find?_some hfind
  exact ⟨r, List.mem_of_find?_eq_some hfind, rfl, Pattern.accepts_iff.1 haccepts⟩

theorem outcomeOf_eq_none_iff : outcomeOf rules w = none ↔ ∀ r ∈ rules, ¬ r.pattern.Matches w := by
  simp only [outcomeOf, Option.map_eq_none_iff, List.find?_eq_none, Pattern.accepts_iff]

/-- A text that starts a match also does so when its end is cut off. -/
theorem Opens.of_append {w' : List Char} (h : Opens rules (w ++ w')) : Opens rules w := by
  obtain ⟨r, hr, v, hv⟩ := h
  exact ⟨r, hr, w' ++ v, by rwa [← List.append_assoc]⟩

theorem opens_of_outcomeOf (h : outcomeOf rules w = some o) : Opens rules w := by
  obtain ⟨r, hr, -, hmatches⟩ := exists_of_outcomeOf h
  exact ⟨r, hr, [], by rwa [List.append_nil]⟩

/-- Behind a text with which no match starts there is none. -/
theorem outcomeOf_take_of_not_opens (h : ¬ Opens rules (w ++ [c])) (hlt : w.length < n) :
    outcomeOf rules ((w ++ c :: cs).take n) = none := by
  cases hfound : outcomeOf rules ((w ++ c :: cs).take n) with
  | none => rfl
  | some o =>
      refine absurd (opens_of_outcomeOf hfound) fun hopens => h ?_
      obtain ⟨k, rfl⟩ : ∃ k, n = (w ++ [c]).length + k := ⟨n - (w.length + 1), by simp; omega⟩
      rw [List.append_cons w c cs, List.take_length_add_append] at hopens
      exact hopens.of_append

end Rule

namespace Raw

open Rule (Opens Solid outcomeOf)

/-! ## Rules left while a text is read

Rules that have no texts any more are dropped at once. -/

/-- The rules that can still match after `w`, with what is left of their patterns. -/
def left (rules : List Rule) (w : List Char) : List Rule :=
  rules.filterMap fun r =>
    if (r.pattern.derivs w).isVoid then none else some ⟨r.outcome, r.pattern.derivs w⟩

/-- No rule is dropped before the first character. -/
theorem left_nil (h : Solid rules) : left rules [] = rules := by
  have hkeep : ∀ r ∈ rules, (if (r.pattern.derivs []).isVoid then none
      else some ⟨r.outcome, r.pattern.derivs []⟩) =
      some r := by
    intro r hr
    have hvoid : (r.pattern.derivs []).isVoid = false :=
      (Pattern.isVoid_derivs_iff (h r hr)).2 (Pattern.exists_matches (h r hr))
    rw [hvoid]
    rfl
  rw [left, List.filterMap_congr hkeep, List.filterMap_some]

/-- Reading a character goes from the rules left after a text to those left after one more. -/
theorem step_left (rules : List Rule) (w : List Char) (c : Char) :
    step (left rules w) c = left rules (w ++ [c]) := by
  rw [step, left, left, List.filterMap_filterMap]
  refine List.filterMap_congr fun r _ => ?_
  rw [Pattern.derivs_append]
  cases hp : r.pattern.derivs w with
  | void => rfl
  | _ => rfl

/-- The rules are followed one by one. -/
theorem left_cons (r : Rule) (rules : List Rule) (w : List Char) :
    left (r :: rules) w =
      if (r.pattern.derivs w).isVoid then left rules w else ⟨r.outcome, r.pattern.derivs w⟩ ::
      left rules w := by
  rw [left, List.filterMap_cons]
  split
  · next h => rw [if_pos (by simpa using h), left]
  · next r' h =>
    obtain ⟨hvoid, hr'⟩ := Option.ite_none_left_eq_some.1 h
    cases hr'
    rw [if_neg hvoid, left]

/-- The first rule left that accepts is the first of all that matches what was read. -/
theorem accepting_left (rules : List Rule) (w : List Char) :
    accepting (left rules w) = outcomeOf rules w := by
  induction rules with
  | nil => rfl
  | cons r rules ih =>
      rw [accepting, outcomeOf] at ih
      rw [accepting, outcomeOf, left_cons, List.find?_cons, Pattern.accepts]
      -- a pattern without texts does not have the empty one
      have hvoid : (r.pattern.derivs w).isVoid = true → (r.pattern.derivs w).nullable = false := by
        intro h
        cases hp : r.pattern.derivs w with
        | void => rfl
        | _ =>
            rw [hp] at h
            cases h
      split
      · next h => rw [hvoid h, ih]
      · rw [List.find?_cons]
        cases (r.pattern.derivs w).nullable with
        | true => rfl
        | false => exact ih

/-- No rule is left once no match starts with what was read. -/
theorem left_eq_nil_iff (h : Solid rules) : left rules w = [] ↔ ¬ Opens rules w := by
  rw [left, List.filterMap_eq_nil_iff]
  constructor
  · rintro hnil ⟨r, hr, hv⟩
    have := hnil r hr
    rw [(Pattern.isVoid_derivs_iff (h r hr)).2 hv] at this
    cases this
  · intro hnot r hr
    rw [if_pos]
    by_contra hvoid
    exact hnot ⟨r, hr, (Pattern.isVoid_derivs_iff (h r hr)).1 (by simpa using hvoid)⟩

/-- Where a character of one byte could go on a match by its leading byte, it does go on one. -/
theorem opens_of_hasLead (h : Solid rules) (hc : c.toNat < 0x80)
    (hlead : (left rules w).any (·.pattern.hasLead c) = true) : Opens rules (w ++ [c]) := by
  obtain ⟨r', hr', hlead⟩ := List.any_eq_true.1 hlead
  obtain ⟨r, hr, hsome⟩ := List.mem_filterMap.1 hr'
  obtain ⟨hvoid, heq⟩ := Option.ite_none_left_eq_some.1 hsome
  cases heq
  have hsolid : (r.pattern.derivs w).solid = true := by
    refine (Pattern.reduced_derivs (h r hr)).resolve_left fun heq => hvoid ?_
    rw [heq]
    rfl
  obtain ⟨v, hv⟩ := Pattern.exists_matches_of_hasLead hsolid hc hlead
  refine ⟨r, hr, v, ?_⟩
  rw [List.append_assoc]
  exact Pattern.matches_derivs.1 hv

/-! ## What is found

`Raw.Best` says what the longest match is, without saying how it is found, and there is only one
(`Raw.Best.unique`). -/

/-- The longest match at the start of a text, or that there is none. -/
def Best (rules : List Rule) (cs : List Char) : Option (Outcome × Nat) → Prop
  | some (o, n) => 0 < n ∧ n ≤ cs.length ∧ outcomeOf rules (cs.take n) = some o ∧
      ∀ m, n < m → m ≤ cs.length → outcomeOf rules (cs.take m) = none
  | none => ∀ m, 0 < m → m ≤ cs.length → outcomeOf rules (cs.take m) = none

/-- How far an error reaches: over the longest text with which a match starts, and over one more
character if it is the first or a match could go on by its leading byte. -/
def Strays (rules : List Rule) (cs : List Char) (n : Nat) : Prop :=
  ∃ w rest, cs = w ++ rest ∧ Opens rules w ∧
    (rest = [] ∧ n = max w.length 1 ∨
      ∃ c tail, rest = c :: tail ∧ ¬ Opens rules (w ++ [c]) ∧
        n = if w = [] ∨ (left rules w).any (·.pattern.hasLead c) = true then w.length + 1
        else w.length)

/-- What is rightly found at the start of a text. -/
def Found.Right (rules : List Rule) (cs : List Char) : Found → Prop
  | .hit o n => Best rules cs (some (o, n))
  | .miss n => Best rules cs none ∧ Strays rules cs n

variable {best : Option (Outcome × Nat)}

/-- A longest match stays the longest if no longer text matches. -/
theorem Best.append (h : Best rules w best)
    (hnone : ∀ m, w.length < m → outcomeOf rules ((w ++ cs).take m) = none) :
    Best rules (w ++ cs) best := by
  have htake : ∀ m, m ≤ w.length → (w ++ cs).take m = w.take m :=
    fun m hm => List.take_append_of_le_length hm
  rcases best with _ | ⟨o, n⟩
  · intro m hpos _
    by_cases hm : m ≤ w.length
    · rw [htake m hm]
      exact h m hpos hm
    · exact hnone m (by omega)
  · obtain ⟨hpos, hle, ho, hlonger⟩ := h
    refine ⟨hpos, by simp; omega, by rw [htake n hle, ho], fun m hlt _ => ?_⟩
    by_cases hm : m ≤ w.length
    · rw [htake m hm]
      exact hlonger m hlt hm
    · exact hnone m (by omega)

/-- One more character makes the whole text the longest match, or leaves it as it was. -/
theorem Best.concat (h : Best rules w best) (c : Char) :
    Best rules (w ++ [c]) (match outcomeOf rules (w ++ [c]) with
      | some o => some (o, w.length + 1)
      | none => best) := by
  have hall : ∀ m, w.length < m → (w ++ [c]).take m = w ++ [c] := by
    intro m hm
    exact List.take_of_length_le (by rw [List.length_append]; exact hm)
  split
  · next o ho =>
    refine ⟨Nat.succ_pos _, by simp, by rw [hall _ (Nat.lt_succ_self _), ho], fun m hlt hle => ?_⟩
    simp only [List.length_append, List.length_singleton] at hle
    omega
  · next hnone => exact h.append fun m hm => by rw [hall m hm, hnone]

/-- What is found while reading on is right, if what was found before is. -/
theorem right_munch (h : Solid rules) (hbest : Best rules w best) (hopens : Opens rules w)
    (cs : List Char) :
    Found.Right rules (w ++ cs) (munch (left rules w) w.length best cs) := by
  induction cs generalizing w best with
  | nil =>
      rw [List.append_nil]
      unfold munch
      rcases best with _ | ⟨o, n⟩
      · exact ⟨hbest, w, [], (List.append_nil w).symm, hopens, .inl ⟨rfl, rfl⟩⟩
      · exact hbest
  | cons c cs ih =>
      by_cases hc : Opens rules (w ++ [c])
      · have hne : left rules (w ++ [c]) ≠ [] := fun hnil => (left_eq_nil_iff h).1 hnil hc
        obtain ⟨r, rs, hleft⟩ := List.exists_cons_of_ne_nil hne
        have hih := ih (hbest.concat c) hc
        rw [List.append_assoc, ← accepting_left, hleft, List.length_append] at hih
        unfold munch
        rw [step_left, hleft]
        exact hih
      · have hbest' : Best rules (w ++ c :: cs) best :=
          hbest.append fun m hm => Rule.outcomeOf_take_of_not_opens hc hm
        unfold munch
        rw [step_left, (left_eq_nil_iff h).2 hc]
        rcases best with _ | ⟨o, n⟩
        · refine ⟨hbest', w, c :: cs, rfl, hopens, .inr ⟨c, cs, rfl, hc, ?_⟩⟩
          simp only [Bool.or_eq_true, decide_eq_true_eq, List.length_eq_zero_iff]
        · exact hbest'

/-- Some rule matches something. -/
theorem opens_nil : Opens Rule.table [] := by
  refine ⟨⟨.accept .whitespace, Rule.whitespace⟩,
    Rule.mem_table_of_varying (by simp [Rule.varyingTexts]), [' '], ?_⟩
  rw [← Pattern.accepts_iff]
  decide +kernel

/-- **The longest match is found**, and an error only where nothing matches. -/
theorem munch_spec (cs : List Char) : Found.Right Rule.table cs (munch Rule.table 0 none cs) := by
  have hbest : Best Rule.table [] none := fun m hpos hle => absurd hle (Nat.not_le.2 hpos)
  have h := right_munch Rule.solid_table hbest opens_nil cs
  rwa [left_nil Rule.solid_table] at h

/-- Of two longest matches neither is longer, and the first rule is the same. -/
theorem Best.unique {best' : Option (Outcome × Nat)} (h : Best rules cs best)
    (h' : Best rules cs best') :
    best = best' := by
  rcases best with _ | ⟨o, n⟩
  · rcases best' with _ | ⟨o', n'⟩
    · rfl
    · obtain ⟨hpos, hle, ho, -⟩ := h'
      rw [h n' hpos hle] at ho
      cases ho
  · rcases best' with _ | ⟨o', n'⟩
    · obtain ⟨hpos, hle, ho, -⟩ := h
      rw [h' n hpos hle] at ho
      cases ho
    · obtain ⟨-, hle, ho, hlonger⟩ := h
      obtain ⟨-, hle', ho', hlonger'⟩ := h'
      have hn : n = n' := by
        by_contra hne
        rcases Nat.lt_or_gt_of_ne hne with hlt | hlt
        · rw [hlonger n' hlt hle'] at ho'
          cases ho'
        · rw [hlonger' n hlt hle] at ho
          cases ho
      subst hn
      rw [ho] at ho'
      cases ho'
      rfl

/-- If there is a longest match, it is what is found. -/
theorem munch_eq_hit (h : Best Rule.table cs (some (o, n))) :
    munch Rule.table 0 none cs = .hit o n := by
  have hright := munch_spec cs
  cases hfound : munch Rule.table 0 none cs with
  | hit o' n' =>
      rw [hfound] at hright
      have hbest : Best Rule.table cs (some (o', n')) := hright
      cases h.unique hbest
      rfl
  | miss n' =>
      rw [hfound] at hright
      cases h.unique hright.1

/-- **A match starts with what is found**, up to a character of one byte that is not the first. -/
theorem opens_of_munch (hw : w ≠ []) (hc : c.toNat < 0x80)
    (hlt : w.length < (munch Rule.table 0 none (w ++ c :: cs)).length) :
    Opens Rule.table (w ++ [c]) := by
  have hright := munch_spec (w ++ c :: cs)
  have hopens : ∀ {t t' : List Char}, w ++ c :: cs = t ++ t' → w.length < t.length →
      Opens Rule.table t →
      Opens Rule.table (w ++ [c]) := by
    intro t t' heq hlen ht
    obtain ⟨u, rfl⟩ : w ++ [c] <+: t :=
      List.prefix_of_prefix_length_le ⟨cs, by simp⟩ ⟨t', heq.symm⟩
        (by rw [List.length_append]; exact hlen)
    exact ht.of_append
  cases hfound : munch Rule.table 0 none (w ++ c :: cs) with
  | hit o n =>
      rw [hfound] at hright hlt
      obtain ⟨-, hle, ho, -⟩ := hright
      refine hopens (List.take_append_drop n _).symm ?_ (Rule.opens_of_outcomeOf ho)
      rw [List.length_take, Nat.min_eq_left hle]
      exact hlt
  | miss n =>
      rw [hfound] at hright hlt
      obtain ⟨-, t, rest, heq, ht, hend⟩ := hright
      by_cases hlen : w.length < t.length
      · exact hopens heq hlen ht
      · have hpos := List.length_pos_iff.2 hw
        rcases hend with ⟨rfl, rfl⟩ | ⟨d, tail, rfl, -, rfl⟩
        · -- the error reaches no further than the text
          simp only [Found.length] at hlt
          omega
        · simp only [Found.length] at hlt
          split at hlt
          · next hlead =>
            obtain ⟨rfl, hcons⟩ := List.append_inj heq (by omega)
            cases hcons
            exact opens_of_hasLead Rule.solid_table hc (hlead.resolve_left hw)
          · omega

end Raw

/-! ## Rules told by the first character

If the sets in which texts of the other rules start do not meet some set, then a text that starts in
it is the business of one rule alone. -/

namespace Text.CharSet

/-- Some range of one set overlaps one of the other. -/
def meets (s t : CharSet) : Bool :=
  s.ranges.any fun r => t.ranges.any fun r' => max r.1 r'.1 ≤ min r.2 r'.2

theorem meets_of_mem {s t : CharSet} (hs : s.mem c = true) (ht : t.mem c = true) :
    s.meets t = true := by
  simp only [mem, meets, List.any_eq_true, Bool.and_eq_true, decide_eq_true_eq] at hs ht ⊢
  obtain ⟨r, hr, hle⟩ := hs
  obtain ⟨r', hr', hle'⟩ := ht
  exact ⟨r, hr, r', hr', by omega⟩

end Text.CharSet

namespace Raw

open Rule (outcomeOf)

/-- Only one rule matches texts that start with a character. -/
def Alone (c : Char) (r : Rule) : Prop :=
  r ∈ Rule.table ∧ ∀ r' ∈ Rule.table, ∀ v, r'.pattern.Matches (c :: v) → r' = r

/-- Where only one rule matches, its match ends before a character that it does not mention. -/
theorem munch_alone {r : Rule} {rest : List Char} (h : Alone c r)
    (hmatches : r.pattern.Matches (c :: w))
    (hrest : ∀ d tail, rest = d :: tail → r.pattern.mentions d = false) :
    munch Rule.table 0 none (c :: w ++ rest) = .hit r.outcome (w.length + 1) := by
  apply munch_eq_hit
  refine ⟨Nat.succ_pos _, by simp, ?_, fun m hlt hle => ?_⟩
  · rw [show w.length + 1 = (c :: w).length from rfl, List.take_left]
    cases ho : outcomeOf Rule.table (c :: w) with
    | none => exact absurd hmatches (Rule.outcomeOf_eq_none_iff.1 ho r h.1)
    | some o =>
        obtain ⟨r', hr', rfl, hmatches'⟩ := Rule.exists_of_outcomeOf ho
        rw [h.2 r' hr' w hmatches']
  · rw [Rule.outcomeOf_eq_none_iff]
    intro r' hr' hmatches'
    obtain ⟨k, rfl⟩ : ∃ k, m = (c :: w).length + (k + 1) := ⟨m - (w.length + 1) - 1, by simp; omega⟩
    rw [List.take_length_add_append, List.cons_append] at hmatches'
    have hr : r' = r := h.2 r' hr' _ hmatches'
    subst hr
    cases rest with
    | nil =>
        simp only [List.append_nil, List.length_cons] at hle
        omega
    | cons d tail =>
        have hmentions := hmatches'.mentions (c := d) (by simp)
        rw [hrest d tail rfl] at hmentions
        cases hmentions

/-- It is enough to compare the sets of first characters. -/
theorem alone_of_firsts {s : CharSet} {r : Rule} (hr : r ∈ Rule.table)
    (h : ∀ r' ∈ Rule.table, (r'.pattern.firsts.any (·.meets s)) = true → r' = r)
    (hc : s.mem c = true) : Alone c r := by
  refine ⟨hr, fun r' hr' v hmatches => h r' hr' ?_⟩
  obtain ⟨set, hset, hmem⟩ := Pattern.exists_mem_firsts hmatches
  exact List.any_eq_true.2 ⟨set, hset, CharSet.meets_of_mem hmem hc⟩

/-- Blanks are told by the first one. -/
theorem alone_blank (hc : Rule.blanks.mem c = true) :
    Alone c ⟨.accept .whitespace, Rule.whitespace⟩ :=
  alone_of_firsts (Rule.mem_table_of_varying (by simp [Rule.varyingTexts]))
    (Rule.forall_mem_table (by decide)) hc

/-- A directive is told by its first character. -/
theorem alone_hash : Alone '#' ⟨.accept .directive, Rule.directive⟩ := by
  have hmem : ⟨.accept .directive, Rule.directive⟩ ∈ Rule.table :=
    Rule.mem_table_of_varying (by simp [Rule.varyingTexts])
  exact alone_of_firsts (s := .single '#') hmem (Rule.forall_mem_table (by decide)) (by decide)

/-- **Blanks are found together.** -/
theorem munch_blanks {rest : List Char} (hw : ∀ d ∈ c :: w, Rule.blanks.mem d = true)
    (hrest : ∀ d tail, rest = d :: tail → Rule.blanks.mem d = false) :
    munch Rule.table 0 none (c :: w ++ rest) = .hit (.accept .whitespace) (w.length + 1) := by
  refine munch_alone (alone_blank (hw c List.mem_cons_self)) ?_ fun d tail heq => ?_
  · exact Pattern.matches_seq.2 ⟨[c], w, rfl, .one (hw c List.mem_cons_self),
      Pattern.matches_star_one.2 fun d hd => hw d (List.mem_cons_of_mem c hd)⟩
  · simp only [Rule.whitespace, Pattern.plus, Pattern.mentions, hrest d tail heq, Bool.or_self]

/-- **A directive goes to the end of its line.** -/
theorem munch_directive {rest : List Char} (hw : '\n' ∉ w)
    (hrest : ∀ d tail, rest = d :: tail → d = '\n') :
    munch Rule.table 0 none ('#' :: w ++ rest) = .hit (.accept .directive) (w.length + 1) := by
  refine munch_alone alone_hash ?_ fun d tail heq => ?_
  · refine Pattern.matches_seq.2 ⟨['#'], w, rfl, (Pattern.matches_text "#").2 (by decide), ?_⟩
    refine Pattern.matches_star_one.2 fun d hd => (CharSet.mem_except (by simp)).2 ?_
    rw [List.mem_singleton]
    rintro rfl
    exact hw hd
  · rw [hrest d tail heq]
    decide +kernel

/-- A directive starts with its mark. -/
theorem hash_of_directive (h : outcomeOf Rule.table w = some (.accept .directive)) :
    ∃ v, w = '#' :: v := by
  obtain ⟨r, hr, ho, hmatches⟩ := Rule.exists_of_outcomeOf h
  have hdirective : ∀ r ∈ Rule.table, r.outcome = .accept .directive → r.pattern = Rule.directive :=
    Rule.forall_mem_table (by decide)
  rw [hdirective r hr ho] at hmatches
  obtain ⟨u, v, rfl, hu, -⟩ := Pattern.matches_seq.1 hmatches
  rw [(Pattern.matches_text "#").1 hu]
  exact ⟨v, rfl⟩

end Raw

end SharpTokens
