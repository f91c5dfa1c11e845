import SharpTokens.Proofs.Lexeme.Lines
import SharpTokens.Proofs.Text.LineEnds

/-!
# Line ends and the longest match

A carriage return before a line feed changes little of what is found in a text. No rule tells a line
feed from a carriage return and a line feed (`Rule.left_crlf`), so a text with carriage returns
matches exactly what it matched without them. New are only texts that end with the carriage return
of a line feed: comments, directives and strings that go to the end of a line take it, and so does a
backslash in a string (`Rule.outcomeOf_return`).

What is left of a pattern after a text is one of a few patterns, since most characters are alike to
it. That is how facts about all texts of a pattern are decided here (`foldl_mem`).

For one pattern the states are found by trying a few texts, and two things are computed of them:
each state leads to another one of them by every character that is told apart and by one that stands
for all others, and a carriage return and a line feed lead where a line feed leads. The induction
that turns this into a statement about all texts is `foldl_mem`, and it is the only one.
-/

namespace SharpTokens

open Text (CharSet crlf)

/-! ## States

Only a few characters are told apart by the sets of a pattern. For all others one stands for all. -/

/-- States that are closed under some characters are closed under all that act like one of them. -/
theorem foldl_mem {σ : Type} {step : σ → Char → σ} {states : List σ} (chars : List Char)
    (hclosed : ∀ q ∈ states, ∀ c ∈ chars, step q c ∈ states)
    (hlike : ∀ q ∈ states, ∀ c, ∃ d ∈ chars, step q c = step q d) {q : σ} (hq : q ∈ states)
    (w : List Char) :
    w.foldl step q ∈ states := by
  induction w generalizing q with
  | nil => exact hq
  | cons c w ih =>
      obtain ⟨d, hd, heq⟩ := hlike q hq c
      rw [List.foldl_cons, heq]
      exact ih (hclosed q hq d hd)

namespace Text.CharSet

variable {c d : Char} {marks : List Char} {s : CharSet}

/-- The characters that sets of the rules are without. -/
def excepted : List (List Char) := [['\n'], ['*'], ['*', '/'], ['"'], ['\n', '"', '\\']]

/-- A set tells no characters apart but some: it has just one of them, or all but a few of them. -/
def tells (marks : List Char) (s : CharSet) : Bool :=
  marks.any (fun c => s == single c) || excepted.any fun cs => cs.all marks.contains &&
    s == except cs

/-- A set that tells only some characters apart has all others or none of them. -/
theorem mem_eq_of_tells (h : s.tells marks = true) (hc : c ∉ marks) (hd : d ∉ marks) :
    s.mem c = s.mem d := by
  rw [tells, Bool.or_eq_true, List.any_eq_true, List.any_eq_true] at h
  rw [Bool.eq_iff_iff]
  rcases h with ⟨m, hm, heq⟩ | ⟨cs, hcs, heq⟩
  · rw [beq_iff_eq] at heq
    rw [heq, mem_single, mem_single]
    exact ⟨fun h => absurd (h ▸ hm) hc, fun h => absurd (h ▸ hm) hd⟩
  · rw [Bool.and_eq_true, beq_iff_eq, List.all_eq_true] at heq
    have hsorted : ∀ cs ∈ excepted, (cs.map Char.toNat).Pairwise (· < ·) := by decide
    have hmarks : ∀ m ∈ cs, m ∈ marks := fun m hm => List.contains_iff_mem.1 (heq.1 m hm)
    rw [heq.2, mem_except (hsorted cs hcs), mem_except (hsorted cs hcs)]
    exact ⟨fun _ h => hd (hmarks d h), fun _ h => hc (hmarks c h)⟩

end Text.CharSet

namespace Pattern

variable {p q : Pattern} {c d : Char} {marks : List Char} {states : List Pattern}

/-- Characters that are in the same sets are alike to a pattern. -/
theorem deriv_congr (h : ∀ s ∈ p.sets, s.mem c = s.mem d) : p.deriv c = p.deriv d := by
  induction p with
  | void => rfl
  | empty => rfl
  | one set => rw [deriv, deriv, h set (List.mem_singleton_self set)]
  | seq p q ihp ihq =>
      rw [deriv, deriv, ihp fun s hs => h s (List.mem_append_left _ hs), ihq fun s hs =>
        h s (List.mem_append_right _ hs)]
  | alt p q ihp ihq =>
      rw [deriv, deriv, ihp fun s hs => h s (List.mem_append_left _ hs), ihq fun s hs =>
        h s (List.mem_append_right _ hs)]
  | star p ih => rw [deriv, deriv, ih h]

/-- What is left of a pattern is one of some patterns, if these are closed under the characters that
they tell apart and one other. -/
theorem derivs_mem {other : Char} (hother : other ∉ marks)
    (hclosed : ∀ q ∈ states, ∀ c ∈ other :: marks, q.deriv c ∈ states)
    (htells : ∀ q ∈ states, ∀ s ∈ q.sets, s.tells marks = true) (hp : p ∈ states) (w : List Char) :
    p.derivs w ∈ states := by
  refine foldl_mem _ hclosed (fun q hq c => ?_) hp w
  by_cases hc : c ∈ marks
  · exact ⟨c, List.mem_cons_of_mem other hc, rfl⟩
  · exact ⟨other, List.mem_cons_self, deriv_congr fun s hs =>
      CharSet.mem_eq_of_tells (htells q hq s hs) hc hother⟩

/-! ## A carriage return and a line feed

Patterns that never mention a line feed are left without texts by it, with or without a carriage
return. The others are explored. -/

/-- Behind any text, a pattern takes a carriage return and a line feed for a line feed. -/
def Bridges (p : Pattern) : Prop :=
  ∀ w, ((p.derivs w).deriv '\r').deriv '\n' = (p.derivs w).deriv '\n'

/-- A pattern that does not tell line ends apart has the same derivatives by a text with either. -/
theorem Bridges.derivs_crlf (h : Bridges p) (w : List Char) : p.derivs (crlf w) = p.derivs w := by
  induction w generalizing p with
  | nil => rfl
  | cons c w ih =>
      have hrest := ih fun v => h (c :: v)
      by_cases hc : c = '\n'
      · subst hc
        have hfirst : (p.deriv '\r').deriv '\n' = p.deriv '\n' := h []
        show ((p.deriv '\r').deriv '\n').derivs (crlf w) = (p.deriv '\n').derivs w
        rw [hfirst, hrest]
      · rw [Text.crlf_cons hc]
        exact hrest

/-- What a derivative mentions, the pattern mentions. -/
theorem mentions_deriv (h : (p.deriv c).mentions d = true) : p.mentions d = true := by
  -- simplifying drops parts and adds none
  have hfollowedBy : ∀ {p q : Pattern}, (followedBy p q).mentions d = true → p.mentions d = true ∨
      q.mentions d = true := by
    intro p q h
    unfold followedBy at h
    split at h
    · cases h
    · exact .inr h
    · cases h
    · exact Bool.or_eq_true_iff.1 h
  have horElse : ∀ {p q : Pattern}, (orElse p q).mentions d = true → p.mentions d = true ∨
      q.mentions d = true := by
    intro p q h
    unfold orElse at h
    split at h
    · exact .inr h
    · exact .inl h
    · exact Bool.or_eq_true_iff.1 h
  induction p with
  | void => cases h
  | empty => cases h
  | one set =>
      rw [deriv] at h
      split at h
      all_goals cases h
  | seq p q ihp ihq =>
      rw [mentions, Bool.or_eq_true]
      rw [deriv] at h
      split at h
      · rcases horElse h with h | h
        · exact (hfollowedBy h).imp_left ihp
        · exact .inr (ihq h)
      · exact (hfollowedBy h).imp_left ihp
  | alt p q ihp ihq =>
      rw [mentions, Bool.or_eq_true]
      exact (horElse h).imp ihp ihq
  | star p ih => exact (hfollowedBy h).elim ih id

/-- No text of a pattern has a character that it does not mention. -/
theorem deriv_eq_void (h : p.mentions c = false) : p.deriv c = void := by
  induction p with
  | void => rfl
  | empty => rfl
  | one set => rw [deriv, if_neg (by simpa [mentions] using h)]
  | seq p q ihp ihq =>
      rw [mentions, Bool.or_eq_false_iff] at h
      rw [deriv, ihp h.1, ihq h.2]
      split
      all_goals rfl
  | alt p q ihp ihq =>
      rw [mentions, Bool.or_eq_false_iff] at h
      rw [deriv, ihp h.1, ihq h.2]
      rfl
  | star p ih =>
      rw [deriv, ih h]
      rfl

/-- A pattern that mentions no line feed is left without texts by it. -/
theorem bridges_of_not_mentions (h : p.mentions '\n' = false) : Bridges p := by
  have hderiv : ∀ {q : Pattern} (c : Char), q.mentions '\n' = false →
      (q.deriv c).mentions '\n' = false := by
    intro q c hq
    rw [Bool.eq_false_iff] at hq ⊢
    exact fun hmentions => hq (mentions_deriv hmentions)
  intro w
  have hleft : (p.derivs w).mentions '\n' = false := by
    induction w generalizing p with
    | nil => exact h
    | cons c w ih => exact ih (hderiv c h)
  rw [deriv_eq_void hleft, deriv_eq_void (hderiv '\r' hleft)]

/-- It is enough to look at each state. -/
theorem bridges_of_states (states : List Pattern) (marks : List Char) (other : Char)
    (hother : other ∉ marks) (hclosed : ∀ q ∈ states, ∀ c ∈ other :: marks, q.deriv c ∈ states)
    (htells : ∀ q ∈ states, ∀ s ∈ q.sets, s.tells marks = true) (hp : p ∈ states)
    (hbridge : ∀ q ∈ states, (q.deriv '\r').deriv '\n' = q.deriv '\n') : Bridges p :=
  fun w => hbridge _ (derivs_mem hother hclosed htells hp w)

end Pattern

namespace Rule

open Pattern

/-! ### Exploring the rules

The rules that mention a line feed are few. For each of them a few texts lead to all of its states,
and the rest is computed. -/

/-- What is left of a pattern after each of some texts. -/
def samples (p : Pattern) (texts : List String) : List Pattern :=
  texts.map fun s => p.derivs s.toList

/-- Patterns that go over several lines, each with texts after which it is left as after any text,
and with the characters that it tells apart. -/
def explored : List (Pattern × List String × List Char) := [
  (blockComment, ["", "/", "/*", "/**", "/**/", "//"], ['*', '/']),
  (verbatimString, ["", "@", "@\"", "@\"\"", "/"], ['@', '"']),
  (interpolatedVerbatimString, ["", "$", "@", "$@", "$@\"", "$@\"\"", "/"], ['@', '"', '$']),
  (rawString, ["", "\"", "\"\"", "\"\"\"", "\"\"\"\"", "\"\"\"\"\"", "\"\"\"\"\"\"", "/"],
    ['"', '$'])]

/-- The comments, strings and blanks that go over several lines. -/
theorem bridges_explored : ∀ e ∈ explored, Bridges e.1 := by
  have hstates : ∀ e ∈ explored, '\n' ∉ e.2.2 ∧ e.1 ∈ samples e.1 e.2.1 ∧ ∀ q ∈ samples e.1 e.2.1,
      (∀ p ∈ ('\n' :: e.2.2).map q.deriv, p ∈ samples e.1 e.2.1) ∧
      (∀ s ∈ q.sets, s.tells e.2.2 = true) ∧
        (q.deriv '\r').deriv '\n' = q.deriv '\n' := by
    decide +kernel
  intro e he
  obtain ⟨hother, hp, hq⟩ := hstates e he
  refine bridges_of_states _ e.2.2 '\n' hother ?_ ?_ hp ?_
  · exact fun q hmem => List.forall_mem_map.1 (hq q hmem).1
  · exact fun q hmem => (hq q hmem).2.1
  · exact fun q hmem => (hq q hmem).2.2

/-- To blanks, characters are either blank or not. -/
theorem bridges_whitespace : Bridges whitespace := by
  have hstates : whitespace ∈ samples whitespace ["", " ", "/"] ∧
      ∀ q ∈ samples whitespace ["", " ", "/"],
      (∀ s ∈ q.sets, s = blanks) ∧ (∀ p ∈ ['\n', '/'].map q.deriv,
        p ∈ samples whitespace ["", " ", "/"]) ∧
        (q.deriv '\r').deriv '\n' = q.deriv '\n' := by
    decide +kernel
  have hclosed : ∀ q ∈ samples whitespace ["", " ", "/"], ∀ c ∈ ['\n', '/'],
      q.deriv c ∈ samples whitespace ["", " ", "/"] :=
      fun q hq => List.forall_mem_map.1 (hstates.2 q hq).2.1
  intro w
  refine (hstates.2 _ (foldl_mem _ hclosed (fun q hq c => ?_) hstates.1 w)).2.2
  have hsets := (hstates.2 q hq).1
  cases hc : blanks.mem c with
  | true => exact ⟨'\n', by decide, deriv_congr fun s hs => by rw [hsets s hs, hc]; decide⟩
  | false => exact ⟨'/', by decide, deriv_congr fun s hs => by rw [hsets s hs, hc]; decide⟩

/-- All rules. -/
theorem bridges_table : ∀ r ∈ table, Bridges r.pattern := by
  intro r hr
  cases hmentions : r.pattern.mentions '\n' with
  | false => exact bridges_of_not_mentions hmentions
  | true =>
      have hcrossing : crossing = explored.map Prod.fst := rfl
      rcases mentions_lineFeed r hr hmentions with heq | hmem
      · exact heq ▸ bridges_whitespace
      · rw [hcrossing] at hmem
        obtain ⟨e, he, heq⟩ := List.mem_map.1 hmem
        exact heq ▸ bridges_explored e he

/-! ### Whole texts

What is true of each rule is true of the table, so the rules that are left after a text are the same
with and without carriage returns. -/

/-- **No rule tells a line feed from a carriage return and a line feed.** -/
theorem left_crlf (w : List Char) : Raw.left table (crlf w) = Raw.left table w := by
  refine List.filterMap_congr fun r hr => ?_
  rw [(bridges_table r hr).derivs_crlf]

/-- The same rule matches with carriage returns. -/
theorem outcomeOf_crlf (w : List Char) : outcomeOf table (crlf w) = outcomeOf table w := by
  rw [← Raw.accepting_left, left_crlf, Raw.accepting_left]

theorem opens_crlf {w : List Char} : Opens table (crlf w) ↔ Opens table w := by
  rw [← not_iff_not, ← Raw.left_eq_nil_iff solid_table, left_crlf, Raw.left_eq_nil_iff solid_table]

end Rule

/-! ## Texts that end with a carriage return

A text with carriage returns may be cut between a carriage return and its line feed, and then it is
none of the texts above. -/

namespace Pattern

variable {p : Pattern} {c : Char} {u : List Char}

/-- The sets of characters that texts of a pattern end with. -/
def lasts : Pattern → List CharSet
  | void => []
  | empty => []
  | one set => [set]
  | seq p q => q.lasts ++ if q.nullable then p.lasts else []
  | alt p q => p.lasts ++ q.lasts
  | star p => p.lasts

/-- A text that is not empty ends with a character of one of these sets. -/
theorem exists_mem_lasts (h : Matches p (u ++ [c])) : ∃ set ∈ p.lasts, set.mem c = true := by
  generalize huc : u ++ [c] = uc at h
  induction h generalizing u with
  | empty => simp at huc
  | @one set d hd =>
      obtain ⟨-, hcd⟩ := List.append_inj' (show u ++ [c] = [] ++ [d] from huc) rfl
      cases hcd
      exact ⟨set, List.mem_singleton_self set, hd⟩
  | @seq p q v w hp hq ihp ihq =>
      -- the last character is in the second part, unless that is empty
      rcases List.eq_nil_or_concat w with rfl | ⟨w', d, rfl⟩
      · rw [List.append_nil] at huc
        obtain ⟨set, hset, hc⟩ := ihp huc
        rw [lasts, nullable_iff.2 hq]
        exact ⟨set, List.mem_append_right _ hset, hc⟩
      · rw [List.concat_eq_append, ← List.append_assoc] at huc
        obtain ⟨-, hcd⟩ := List.append_inj' huc rfl
        cases hcd
        obtain ⟨set, hset, hc⟩ := ihq (List.concat_eq_append ..).symm
        exact ⟨set, List.mem_append_left _ hset, hc⟩
  | altLeft _ ih =>
      obtain ⟨set, hset, hc⟩ := ih huc
      exact ⟨set, List.mem_append_left _ hset, hc⟩
  | altRight _ ih =>
      obtain ⟨set, hset, hc⟩ := ih huc
      exact ⟨set, List.mem_append_right _ hset, hc⟩
  | starNil => simp at huc
  | @starCons p v w hp hstar ihp ihstar =>
      rcases List.eq_nil_or_concat w with rfl | ⟨w', d, rfl⟩
      · rw [List.append_nil] at huc
        exact ihp huc
      · rw [List.concat_eq_append, ← List.append_assoc] at huc
        obtain ⟨-, hcd⟩ := List.append_inj' huc rfl
        cases hcd
        exact ihstar (List.concat_eq_append ..).symm

end Pattern

namespace Raw

open Rule (table outcomeOf samples)

variable {live : List Rule} {c d : Char} {w x : List Char} {o : Outcome}

theorem step_congr (h : ∀ r ∈ live, ∀ s ∈ r.pattern.sets, s.mem c = s.mem d) :
    step live c = step live d := by
  refine List.filterMap_congr fun r hr => ?_
  rw [Pattern.deriv_congr (h r hr)]

/-- Rules are left by one text after another. -/
theorem left_append (rules : List Rule) (w x : List Char) :
    left rules (w ++ x) = x.foldl step (left rules w) := by
  induction x generalizing w with
  | nil => rw [List.append_nil]; rfl
  | cons c x ih => rw [List.append_cons, ih, ← step_left]; rfl

/-- Rules that go to the end of a line are left as they are. -/
theorem left_append_of_line (hsets : ∀ r ∈ left table w, ∀ s ∈ r.pattern.sets,
    s.tells ['\n'] = true)
    (hstep : step (left table w) 'a' = left table w) (hx : '\n' ∉ x) :
    left table (w ++ x) = left table w := by
  rw [left_append]
  induction x with
  | nil => rfl
  | cons c x ih =>
      rw [List.mem_cons, not_or] at hx
      have hc : step (left table w) c = step (left table w) 'a' :=
        step_congr fun r hr s hs =>
          CharSet.mem_eq_of_tells (hsets r hr s hs) (by simpa using Ne.symm hx.1) (by decide)
      rw [List.foldl_cons, hc, hstep]
      exact ih hx.2

/-- What goes to the end of its line, by the text that it starts with. -/
def toLineEnd : List (String × Kind) := [("//", .lineComment), ("#", .directive)]

/-- What goes to the end of its line takes everything up to a line feed. -/
theorem outcomeOf_toLineEnd {str : String} {kind : Kind} (he : (str, kind) ∈ toLineEnd)
    (hx : '\n' ∉ x) :
    outcomeOf table (str.toList ++ x) = some (.accept kind) := by
  have hline : ∀ e ∈ toLineEnd, (∀ r ∈ left table e.1.toList, ∀ s ∈ r.pattern.sets,
      s.tells ['\n'] = true) ∧
      step (left table e.1.toList) 'a' = left table e.1.toList ∧
        accepting (left table e.1.toList) = some (.accept e.2) := by
    rw [Rule.spelled.property]
    decide
  obtain ⟨hsets, hstep, haccepting⟩ := hline _ he
  rw [← accepting_left, left_append_of_line hsets hstep hx, haccepting]

/-! ### Strings on one line

A string that is not closed is refused with all that stands before the end of its line. A carriage
return is part of that, and behind a backslash it is escaped. -/

/-- The rules that can be left in a text that starts with a quote. -/
def quoteStates : List (List Rule) :=
  ["", "a", "\n", "\"", "\\", "a\"", "\"\"", "\"\"\"", "\"\"\"\""].map fun s => s.toList.foldl step
    (left table ['"'])

/-- What is computed of them. A carriage return goes on an open string or follows a backslash in
one, and the rules are left as after a backslash only right behind one. -/
theorem quoteStates_spec : left table ['"'] ∈ quoteStates ∧
    accepting (left table ['"']) = some .refuse ∧
    ∀ live ∈ quoteStates, (∀ r ∈ live, ∀ s ∈ r.pattern.sets, s.tells ['\n', '"', '\\'] = true) ∧
      (∀ p ∈ ['a', '\n', '"', '\\'].map fun c => (c, step live c), p.2 ∈ quoteStates ∧
        (p.2 = left table ['"', '\\'] → p.1 = '\\' ∧ accepting live = some .refuse)) ∧
      (accepting (step live '\r') ≠ none → accepting (step live '\r') = some .refuse ∧
        (accepting live = some .refuse ∨ accepting live = none ∧
          live = left table ['"', '\\'])) := by
  unfold quoteStates
  rw [Rule.spelled.property]
  decide

/-- After a quote only four characters are told apart. -/
theorem exists_like_of_quote (hlive : live ∈ quoteStates) (c : Char) :
    ∃ d ∈ ['a', '\n', '"', '\\'], step live c = step live d ∧ (d ≠ 'a' → d = c) := by
  by_cases hc : c ∈ ['\n', '"', '\\']
  · exact ⟨c, List.mem_cons_of_mem 'a' hc, rfl, fun _ => rfl⟩
  · refine ⟨'a', List.mem_cons_self, ?_, fun h => absurd rfl h⟩
    exact step_congr fun r hr s hs => CharSet.mem_eq_of_tells
      ((quoteStates_spec.2.2 live hlive).1 r hr s hs) hc (by decide)

/-- After a quote, the rules left are among those that were found. -/
theorem left_quote_mem (x : List Char) : left table ('"' :: x) ∈ quoteStates := by
  rw [show '"' :: x = ['"'] ++ x from rfl, left_append]
  have hclosed : ∀ live ∈ quoteStates, ∀ c ∈ ['a', '\n', '"', '\\'], step live c ∈ quoteStates :=
    fun live hlive c hc => (List.forall_mem_map.1 (quoteStates_spec.2.2 live hlive).2.1 c hc).1
  refine foldl_mem _ hclosed (fun live hlive c => ?_) quoteStates_spec.1 x
  obtain ⟨d, hd, heq, -⟩ := exists_like_of_quote hlive c
  exact ⟨d, hd, heq⟩

/-- A carriage return goes on an open string, or is taken together with a backslash at its end. -/
theorem outcomeOf_quote_return (h : outcomeOf table ('"' :: x ++ ['\r']) = some o) :
    o = .refuse ∧ (outcomeOf table ('"' :: x) = some .refuse ∨
      outcomeOf table ('"' :: x) = none ∧ ∃ v, x = v ++ ['\\'] ∧
      outcomeOf table ('"' :: v) = some .refuse) := by
  rw [← accepting_left, ← step_left] at h
  obtain ⟨ho, hcases⟩ := (quoteStates_spec.2.2 _ (left_quote_mem x)).2.2
    (by rw [h]; exact Option.some_ne_none o)
  rw [h] at ho
  rw [accepting_left] at hcases
  refine ⟨Option.some.inj ho, hcases.imp_right fun ⟨hnone, hleft⟩ => ⟨hnone, ?_⟩⟩
  rcases List.eq_nil_or_concat x with rfl | ⟨v, c, rfl⟩
  · rw [← accepting_left, quoteStates_spec.2.1] at hnone
    cases hnone
  · rw [List.concat_eq_append, ← List.cons_append, ← step_left] at hleft
    obtain ⟨d, hd, heq, hlike⟩ := exists_like_of_quote (left_quote_mem v) c
    have hescape := List.forall_mem_map.1 (quoteStates_spec.2.2 _ (left_quote_mem v)).2.1 d hd
    obtain ⟨rfl, haccepting⟩ := hescape.2 (by rw [← heq, hleft])
    rw [accepting_left] at haccepting
    exact ⟨v, by rw [List.concat_eq_append, ← hlike (by decide)], haccepting⟩

end Raw

namespace Rule

open Pattern

/-- What may end with a carriage return: blanks, comments and directives to the end of a line, and
open strings. -/
theorem ends_with_return : ∀ r ∈ table, r.pattern.lasts.any (·.mem '\r') = true →
    r.pattern = whitespace ∨ r.pattern = lineComment ∨ r.pattern = directive ∨
    r.pattern = openString :=
  forall_mem_table (by decide)

/-- The text that a pattern starts with is before the carriage return that a match of it ends
with. -/
theorem exists_of_matches_return {str : String} {q : Pattern} {w : List Char}
    (h : Matches (seq (text str) q) (w ++ ['\r'])) (hstr : '\r' ∉ str.toList) :
    ∃ x, w = str.toList ++ x := by
  obtain ⟨u, v, hw, hu, -⟩ := matches_seq.1 h
  rw [(matches_text _).1 hu] at hw
  rcases List.eq_nil_or_concat v with rfl | ⟨x, c, rfl⟩
  · rw [List.append_nil] at hw
    exact absurd (hw ▸ by simp) hstr
  · rw [List.concat_eq_append, ← List.append_assoc] at hw
    exact ⟨x, (List.append_inj' hw rfl).1⟩

/-- **What is found up to a carriage return.** It is blank, or it goes to the end of the line:
without the carriage return it is the same, up to a backslash that was left over. -/
theorem outcomeOf_return {w : List Char} {o : Outcome}
    (h : outcomeOf table (crlf w ++ ['\r']) = some o) :
    (∀ c ∈ w, blanks.mem c = true) ∨
      '\n' ∉ w ∧ (o = .accept .lineComment ∨ o = .accept .directive ∨ o = .refuse) ∧
        (outcomeOf table w = some o ∨
          o = .refuse ∧ outcomeOf table w = none ∧ ∃ v, w = v ++ ['\\'] ∧
          outcomeOf table v = some .refuse) := by
  obtain ⟨r, hr, rfl, hmatches⟩ := exists_of_outcomeOf h
  obtain ⟨set, hset, hmem⟩ := exists_mem_lasts hmatches
  -- few rules have texts that end with a carriage return
  rcases ends_with_return r hr (List.any_eq_true.2 ⟨set, hset, hmem⟩) with heq | heq
  · left
    intro c hc
    rw [heq] at hmatches
    have hmentions := hmatches.mentions (List.mem_append_left _ (Text.mem_crlf_of_mem hc))
    simpa only [whitespace, plus, Pattern.mentions, Bool.or_self] using hmentions
  · right
    -- the others mention no line feed, so nothing was put into the text
    have hline : '\n' ∉ w := by
      intro hfeed
      have hmentions := hmatches.mentions (List.mem_append_left _ (Text.mem_crlf_of_mem hfeed))
      rcases heq with heq | heq | heq
      all_goals
        rw [heq] at hmentions
        exact absurd hmentions (by decide)
    rw [Text.crlf_eq_self hline] at h hmatches
    refine ⟨hline, ?_⟩
    rcases heq with heq | heq | heq
    · rw [heq] at hmatches
      obtain ⟨x, rfl⟩ := exists_of_matches_return hmatches (by decide)
      have hx : '\n' ∉ x := fun hmem => hline (List.mem_append_right _ hmem)
      have he : ("//", Kind.lineComment) ∈ Raw.toLineEnd := by simp [Raw.toLineEnd]
      rw [List.append_assoc] at h
      have ho := h.symm.trans (Raw.outcomeOf_toLineEnd he (by simpa using hx))
      rw [Option.some.inj ho]
      exact ⟨.inl rfl, .inl (Raw.outcomeOf_toLineEnd he hx)⟩
    · rw [heq] at hmatches
      obtain ⟨x, rfl⟩ := exists_of_matches_return hmatches (by decide)
      have hx : '\n' ∉ x := fun hmem => hline (List.mem_append_right _ hmem)
      have he : ("#", Kind.directive) ∈ Raw.toLineEnd := by simp [Raw.toLineEnd]
      rw [List.append_assoc] at h
      have ho := h.symm.trans (Raw.outcomeOf_toLineEnd he (by simpa using hx))
      rw [Option.some.inj ho]
      exact ⟨.inr (.inl rfl), .inl (Raw.outcomeOf_toLineEnd he hx)⟩
    · rw [heq] at hmatches
      obtain ⟨x, rfl⟩ := exists_of_matches_return hmatches (by decide)
      obtain ⟨ho, hcases⟩ := Raw.outcomeOf_quote_return (x := x) h
      rw [ho]
      refine ⟨.inr (.inr rfl), hcases.imp id ?_⟩
      rintro ⟨hnone, v, rfl, hv⟩
      exact ⟨rfl, hnone, '"' :: v, rfl, hv⟩

end Rule

end SharpTokens
