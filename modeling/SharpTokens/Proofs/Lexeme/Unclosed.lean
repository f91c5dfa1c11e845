import Mathlib.Data.List.Infix
import SharpTokens.Proofs.Lexeme.Errors
import SharpTokens.Proofs.Lexeme.LongestMatch

/-!
# What is opened and not closed

Strings, characters and comments are told by how they open (`Rule.openings`). Where none is closed,
nothing longer than the opening is a match but a string that is refused
(`Rule.refuse_of_staysOpen`). So an opening of a string or of a character is an error, which covers
it (`Raw.munch_of_staysOpen`) and says what is left open. The first character of a comment is a
lexeme of its own, though, and the longest match where the comment is not closed: nothing is
reported then (`Lexed.reports_what_stays_open`).

That nothing is closed is said of all starts of the text, and decided rule by rule for a given text
(`Rule.staysOpen_iff`). It excludes every match of a kind that is closed. What is left are the rules
that refuse a string left open, and the marks that an opening itself consists of.
-/

namespace SharpTokens

open Text

namespace Rule

/-! ## How things open

The openings are listed with what is blamed for them. Facts about all of them are decided one by
one. -/

/-- The texts that open something, and what is left open where it is not closed. -/
def openings : List (String × Unclosed) := [
  ("\"", .string), ("@\"", .string), ("$\"", .string), ("$@\"", .string), ("@$\"", .string),
  ("'", .character), ("/*", .comment)]

/-- What is closed is of one of these kinds. -/
def closedKinds : List Kind := [.string, .char, .blockComment]

/-- No start of a text is a string, a character or a comment that is closed. -/
def StaysOpen (rest : List Char) : Prop :=
  ∀ r ∈ table, ∀ k ∈ closedKinds, r.outcome = .accept k → ∀ w, w <+: rest → ¬ r.pattern.Matches w

/-- For a given text it can be computed. -/
theorem staysOpen_iff {rest : List Char} : StaysOpen rest ↔
    ∀ r ∈ table, ∀ k ∈ closedKinds, r.outcome = .accept k →
    ∀ w ∈ rest.inits, r.pattern.accepts w = false := by
  simp only [StaysOpen, List.mem_inits, ← Bool.not_eq_true, Pattern.accepts_iff]

instance (rest : List Char) : Decidable (StaysOpen rest) := decidable_of_iff _ staysOpen_iff.symm

/-- What the rules make of openings: each of them starts a match, and what matches behind it is
closed or, for a string, refused. -/
theorem openings_spec : ∀ e ∈ openings, Raw.left table e.1.toList ≠ [] ∧
    ∀ r ∈ Raw.left table e.1.toList,
    r.outcome = .refuse ∧ e.2 = .string ∨ ∃ k ∈ closedKinds, r.outcome = .accept k := by
  rw [spelled.property]
  decide

/-- No part of an opening is a match, but for that of a comment. -/
theorem outcomeOf_openings : ∀ e ∈ openings, e.2 ≠ .comment → ∀ n < e.1.toList.length, 0 < n →
    outcomeOf table (e.1.toList.take n) = none := by
  rw [spelled.property]
  decide

/-! ## Matches of what stays open

A match that goes beyond the opening starts with it. The rules that are left after the opening are
known, and all of them but one are for what is closed. -/

/-- A rule that matches a text is left while the text is read. -/
theorem mem_left {rules : List Rule} {r : Rule} {w v : List Char} (hsolid : Solid rules)
    (hr : r ∈ rules) (h : r.pattern.Matches (w ++ v)) :
    ⟨r.outcome, r.pattern.derivs w⟩ ∈ Raw.left rules w := by
  refine List.mem_filterMap.2 ⟨r, hr, ?_⟩
  rw [(Pattern.isVoid_derivs_iff (hsolid r hr)).2 ⟨v, h⟩]
  rfl

variable {rest : List Char} {opening : String} {what : Unclosed} {o : Outcome} {n : Nat}

/-- **Where nothing is closed, only a string is found**, and it is refused. -/
theorem refuse_of_staysOpen (he : (opening, what) ∈ openings) (hrest : opening.toList <+: rest)
    (hopen : StaysOpen rest) (hn : opening.toList.length ≤ n)
    (ho : outcomeOf table (rest.take n) = some o) :
    o = .refuse ∧ what = .string := by
  obtain ⟨r, hr, rfl, hmatches⟩ := exists_of_outcomeOf ho
  obtain ⟨v, hv⟩ : opening.toList <+: rest.take n :=
    List.prefix_take_iff.2 ⟨hrest, hn⟩
  rcases (openings_spec _ he).2 _ (mem_left solid_table hr (hv ▸ hmatches)) with hrefuse |
    ⟨k, hk, haccept⟩
  · exact hrefuse
  · exact absurd hmatches (hopen r hr k hk haccept _ (List.take_prefix n rest))

end Rule

namespace Raw

open Rule (Opens StaysOpen openings outcomeOf)

/-- An error covers all that a match could start with. -/
theorem Strays.length_le {rules : List Rule} {cs w : List Char} {n : Nat} (h : Strays rules cs n)
    (hopens : Opens rules w) (hw : w <+: cs) : w.length ≤ n := by
  obtain ⟨t, rest, rfl, -, hend⟩ := h
  rcases hend with ⟨rfl, rfl⟩ | ⟨c, tail, rfl, hnot, rfl⟩
  · have := hw.length_le
    rw [List.append_nil] at this
    omega
  · have hle : w.length ≤ t.length := by
      by_contra hlt
      -- the character that no match goes on with would be in the text
      obtain ⟨u, rfl⟩ : t ++ [c] <+: w :=
        List.prefix_of_prefix_length_le ⟨tail, by simp⟩ hw
          (by rw [List.length_append]; exact Nat.lt_of_not_le hlt)
      exact hnot hopens.of_append
    split
    all_goals omega

variable {rest : List Char} {opening : String} {what : Unclosed}

/-- **An opening of a string or a character that stays open is an error**, which covers it. -/
theorem munch_of_staysOpen (he : (opening, what) ∈ openings) (hwhat : what ≠ .comment)
    (hrest : opening.toList <+: rest) (hopen : StaysOpen rest) :
    (munch Rule.table 0 none rest).kind = none ∧
      opening.toList.length ≤ (munch Rule.table 0 none rest).length := by
  have hright := munch_spec rest
  cases hfound : munch Rule.table 0 none rest with
  | hit o n =>
      rw [hfound] at hright
      obtain ⟨hpos, -, ho, -⟩ := hright
      have hn : opening.toList.length ≤ n := by
        by_contra hlt
        have htake : rest.take n = opening.toList.take n := by
          obtain ⟨v, rfl⟩ := hrest
          exact List.take_append_of_le_length (by omega)
        rw [htake, Rule.outcomeOf_openings _ he hwhat n (Nat.lt_of_not_le hlt) hpos] at ho
        cases ho
      obtain ⟨rfl, -⟩ := Rule.refuse_of_staysOpen he hrest hopen hn ho
      exact ⟨rfl, hn⟩
  | miss n =>
      rw [hfound] at hright
      have hopens : Opens Rule.table opening.toList := by
        by_contra hnot
        exact (Rule.openings_spec _ he).1 ((left_eq_nil_iff Rule.solid_table).2 hnot)
      exact ⟨rfl, hright.2.length_le hopens hrest⟩

/-- Of a comment that stays open, the first character is the longest match. -/
theorem munch_of_comment (hrest : "/*".toList <+: rest) (hopen : StaysOpen rest) :
    munch Rule.table 0 none rest = .hit (.accept .punct) 1 := by
  apply munch_eq_hit
  obtain ⟨v, rfl⟩ := hrest
  have hfirst : outcomeOf Rule.table ['/'] = some (.accept .punct) := by
    rw [Rule.spelled.property]
    decide
  refine ⟨Nat.one_pos, Nat.succ_pos _, hfirst, fun m hm _ => ?_⟩
  cases ho : outcomeOf Rule.table (("/*".toList ++ v).take m) with
  | none => rfl
  | some o =>
      have he : ("/*", Unclosed.comment) ∈ openings := by decide
      cases (Rule.refuse_of_staysOpen he ⟨v, rfl⟩ hopen hm ho).2

end Raw

namespace Lexed

open Rule (StaysOpen openings)

/-! ## What is reported

The error is about what the text opens with. For a comment there is none: its first character is a
mark of its own. -/

/-- What is left open is told by the opening. -/
theorem blame_opening : ∀ e ∈ openings, ∀ v, blame (e.1.toList ++ v) = .unterminated e.2 := by
  simp only [openings, List.forall_mem_cons, List.not_mem_nil, false_implies,
    implies_true, and_true]
  exact ⟨fun _ => rfl, fun _ => rfl, fun _ => rfl, fun _ => rfl, fun _ => rfl, fun _ => rfl,
    fun _ => rfl⟩

variable {text : List Char} {before after : List Raw} {r : Raw} {opening : String} {what : Unclosed}

/-- **What stays open is reported, comments apart.** Take a piece of a text where text is read, and
let the text from there on start with an opening while none of its starts is closed. For a string or
a character, an error at this piece says what is left open. For a comment, the piece is the first
character of the opening and kept as a mark, and no error is at this place. -/
theorem reports_what_stays_open (hpieces : Raw.ofText text = before ++ r :: after)
    (hread : (before.foldl Progress.next .initial).regions.isActive = true)
    (he : (opening, what) ∈ openings) (hrest : opening.toList <+: r.text ++ Raw.texts after)
    (hopen : StaysOpen (r.text ++ Raw.texts after)) :
    (r.span.start = byteSize (Raw.texts before) ∧
      text = Raw.texts before ++ (r.text ++ Raw.texts after)) ∧
    (what ≠ .comment → (.unterminated what, r.span) ∈ (ofText text).errors) ∧
    (what = .comment → ⟨.punct, "/", r.span⟩ ∈ (ofText text).lexemes ∧
      ∀ e ∈ (ofText text).errors, e.2.start ≠ r.span.start) := by
  have hcut := Raw.cut_ofText text
  rw [hpieces] at hcut
  obtain ⟨rest, htext, hcut⟩ := hcut.split
  -- the piece is what is found first in the text from there on
  have hfirst := hcut.eq_first
  have hstart : r.span.start = byteSize (Raw.texts before) := hcut.start_eq.trans (Nat.zero_add _)
  have hwhole : text = Raw.texts before ++ (r.text ++ Raw.texts after) := by
    rw [htext, ← hcut.texts_eq]
    rfl
  refine ⟨⟨hstart, hwhole⟩, fun hwhat => ?_, ?_⟩
  · obtain ⟨hnone, hlength⟩ := Raw.munch_of_staysOpen he hwhat hrest hopen
    have hmem := mem_errors_of_none hpieces hread ((congrArg Raw.kind hfirst).trans hnone)
    obtain ⟨v, hv⟩ : opening.toList <+: r.text := by
      rw [show r.text = _ from congrArg Raw.text hfirst]
      exact List.prefix_take_iff.2 ⟨hrest, hlength⟩
    rwa [← hv, blame_opening _ he] at hmem
  · rintro rfl
    -- there is only one opening of comments
    obtain rfl : opening = "/*" := by simpa [openings] using he
    have hmunch := Raw.munch_of_comment hrest hopen
    have hkind : r.kind = some .punct := by
      rw [show r.kind = _ from congrArg Raw.kind hfirst, Raw.first, hmunch]
      rfl
    have hmark : r.text = ['/'] := by
      rw [show r.text = _ from congrArg Raw.text hfirst, Raw.first, hmunch]
      obtain ⟨v, hv⟩ := hrest
      rw [← hv]
      rfl
    have hmem := mem_lexemes_of_some hpieces hread hkind rfl
    rw [hmark] at hmem
    have hr : r ∈ Raw.ofText text := by
      rw [hpieces]
      exact List.mem_append_right _ List.mem_cons_self
    exact ⟨hmem, fun e he => start_ne_of_lexeme hr hkind (by decide) he⟩

/-- An interpolated string that is left open, where text is read. -/
theorem reports_what_stays_open_interpolated :
    StaysOpen "$\"a\nb".toList ∧ (.unterminated .string, ⟨9, 12⟩) ∈
      (ofText "#if true\n$\"a\nb".toList).errors := by
  have hpieces : Raw.ofText "#if true\n$\"a\nb".toList =
      [⟨some .directive, "#if true".toList, ⟨0, 8⟩⟩, ⟨some .whitespace, ['\n'], ⟨8, 9⟩⟩] ++
        ⟨none, "$\"a".toList, ⟨9, 12⟩⟩ ::
          [⟨some .whitespace, ['\n'], ⟨12, 13⟩⟩, ⟨some .ident, ['b'], ⟨13, 14⟩⟩] := by
    decide +kernel
  have he : ("$\"", Unclosed.string) ∈ openings := by decide
  have hopen : StaysOpen "$\"a\nb".toList := by decide +kernel
  exact ⟨hopen, (reports_what_stays_open hpieces (by decide +kernel) he (by decide) hopen).2.1
    (by decide)⟩

/-- A comment that stays open is read as two marks and whatever it holds, and nothing is
reported. -/
theorem open_comment_unreported :
    ("/*", Unclosed.comment) ∈ openings ∧ "/*".toList <+: "/* a".toList ∧ StaysOpen "/* a".toList ∧
      ofText "/* a".toList = ⟨[⟨.punct, "/", ⟨0, 1⟩⟩, ⟨.star, "*", ⟨1, 2⟩⟩,
        ⟨.ident, "a", ⟨3, 4⟩⟩], []⟩ := by
  decide +kernel

end Lexed

end SharpTokens
