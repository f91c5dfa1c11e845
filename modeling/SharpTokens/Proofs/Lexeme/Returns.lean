import SharpTokens.Proofs.Lexeme.LineEnds
import SharpTokens.Proofs.Lexeme.Pieces

/-!
# Pieces and carriage returns

A text is cut into the same pieces with and without carriage returns before its line feeds, but at
the ends of some lines: there a comment, a directive or an error takes the carriage return that
stands before the blanks (`Raw.firstPieces`). Where a backslash is the last character of a line in a
string that is not closed, it is an error of its own without the carriage return and a part of the
string with it.

There is a longest match in both texts, or in none, and the one with carriage returns is the other
with carriage returns, or it is longer by one at the end of a line. An error goes as far as
characters can start a match; at the end of a line it may go on over a carriage return for the same
reason. The cases are told apart by whether the next character is a line feed.
-/

namespace SharpTokens

open Text

namespace Raw

open Rule (table outcomeOf Opens)

/-! ## First pieces

For a match of some length: does it end inside a line, or right before a line feed? -/

/-- What a text starts with, and with carriage returns before its line feeds. -/
inductive FirstPieces (t : List Char) : Prop
  | same {u s k} : t = u ++ s → u ≠ [] → Starts t u k → Starts (crlf t) (crlf u) k → FirstPieces t
  /-- the carriage return goes with what ends before the line feed -/
  | lineEnd {u s k} : t = u ++ '\n' :: s → u ≠ [] →
      (k = none ∨ k = some .lineComment ∨ k = some .directive ∧ '\n' ∉ u) →
      Starts t u k → Starts (crlf t) (crlf u ++ ['\r']) k → FirstPieces t
  /-- so does a backslash -/
  | escape {u s} : t = u ++ '\\' :: '\n' :: s → u ≠ [] → Starts t u none →
      Starts (crlf t) (crlf u ++ ['\\', '\r']) none → FirstPieces t

variable {t u s : List Char} {k : Option Kind} {n m : Nat}

theorem crlf_ne_nil (h : crlf u ≠ []) : u ≠ [] := by
  rintro rfl
  exact h rfl

/-- What starts a text starts it with carriage returns, and longer texts stay longer. -/
theorem outcomeOf_take_of_longer
    (h : ∀ m, n < m → m ≤ (crlf t).length → outcomeOf table ((crlf t).take m) = none)
    (hm : n < (crlf (t.take m)).length) : outcomeOf table (t.take m) = none := by
  have hsplit : crlf t = crlf (t.take m) ++ crlf (t.drop m) := by
    rw [← crlf_append, List.take_append_drop]
  have htake : (crlf t).take (crlf (t.take m)).length = crlf (t.take m) := by
    rw [hsplit, List.take_left]
  have hnone := h _ hm (by rw [hsplit, List.length_append]; omega)
  rwa [htake, Rule.outcomeOf_crlf] at hnone

/-- An error reaches as far as it does in one way only. -/
theorem Strays.unique {rules : List Rule} {cs : List Char} (h : Strays rules cs n)
    (h' : Strays rules cs m) :
    n = m := by
  obtain ⟨w, rest, rfl, hopens, hend⟩ := h
  obtain ⟨w', rest', heq, hopens', hend'⟩ := h'
  -- neither of the two texts goes on beyond the other
  have hle : ∀ {w rest w' rest' : List Char} {n : Nat}, w ++ rest = w' ++ rest' → Opens rules w' →
      (rest = [] ∧ n = max w.length 1 ∨ ∃ c tail, rest = c :: tail ∧ ¬ Opens rules (w ++ [c]) ∧
        n = if w = [] ∨ (left rules w).any (·.pattern.hasLead c) = true then w.length + 1
        else w.length) →
      w'.length ≤ w.length := by
    intro w rest w' rest' n heq hopens' hend
    by_contra hlt
    rw [Nat.not_le] at hlt
    rcases hend with ⟨rfl, -⟩ | ⟨c, tail, rfl, hnot, -⟩
    · have hlen := congrArg List.length heq
      simp only [List.length_append, List.length_nil] at hlen
      omega
    · obtain ⟨u, rfl⟩ : w ++ [c] <+: w' :=
        List.prefix_of_prefix_length_le ⟨tail, by simp⟩ ⟨rest', heq.symm⟩
          (by rw [List.length_append]; exact hlt)
      exact hnot hopens'.of_append
  have hlen : w.length = w'.length :=
    Nat.le_antisymm (hle heq.symm hopens hend') (hle heq hopens' hend)
  obtain ⟨rfl, rfl⟩ := List.append_inj heq hlen
  rcases hend with ⟨rfl, rfl⟩ | ⟨c, tail, rfl, -, rfl⟩
  · rcases hend' with ⟨-, rfl⟩ | ⟨c, tail, hcons, -⟩
    · rfl
    · cases hcons
  · rcases hend' with ⟨hnil, -⟩ | ⟨c', tail', hcons, -, rfl⟩
    · cases hnil
    · cases hcons
      rfl

theorem outcomeOf_nil : outcomeOf table [] = none := by
  rw [Rule.spelled.property]
  decide

/-- A blank text is matched. -/
theorem outcomeOf_ne_none_of_blank {c : Char} {w : List Char}
    (h : ∀ d ∈ c :: w, Rule.blanks.mem d = true) :
    outcomeOf table (c :: w) ≠ none := by
  intro hnone
  refine Rule.outcomeOf_eq_none_iff.1 hnone ⟨.accept .whitespace, Rule.whitespace⟩
    (List.mem_append_right _ List.mem_cons_self) ?_
  exact Pattern.matches_seq.2 ⟨[c], w, rfl, .one (h c List.mem_cons_self),
    Pattern.matches_star_one.2 fun d hd => h d (List.mem_cons_of_mem c hd)⟩

/-- What is longer without carriage returns is longer with them. -/
theorem length_lt_crlf {v : List Char} (h : u.length < m) (hm : m ≤ (u ++ v).length) :
    (crlf u).length < (crlf ((u ++ v).take m)).length := by
  obtain ⟨j, rfl⟩ : ∃ j, m = u.length + (j + 1) := ⟨m - u.length - 1, by omega⟩
  rw [List.take_length_add_append, crlf_append, List.length_append]
  cases v with
  | nil =>
      rw [List.append_nil] at hm
      omega
  | cons c v =>
      have : crlf ((c :: v).take (j + 1)) ≠ [] := by
        rw [List.take_succ_cons]
        by_cases hc : c = '\n'
        · subst hc
          simp [crlf_lineFeed]
        · simp [crlf_cons hc]
      have := List.length_pos_iff.2 this
      omega

/-! ### Matches

A match that ends inside a line is the same in both texts. One that ends before a line feed may be
longer by the carriage return, if its pattern takes any character up to the end of the line. -/

/-- A match that gets its carriage returns inside. -/
theorem firstPieces_of_hit_inside {o : Outcome}
    (h : munch table 0 none (crlf (u ++ s)) = .hit o (crlf u).length) (hpos : 0 < (crlf u).length)
    (ho : outcomeOf table (crlf u) = some o)
    (hlonger : ∀ m, (crlf u).length < m → m ≤ (crlf (u ++ s)).length →
      outcomeOf table ((crlf (u ++ s)).take m) = none) :
    FirstPieces (u ++ s) := by
  have hu : u ≠ [] := crlf_ne_nil (List.length_pos_iff.1 hpos)
  rw [Rule.outcomeOf_crlf] at ho
  have hhit : munch table 0 none (u ++ s) = .hit o u.length := by
    refine munch_eq_hit ⟨List.length_pos_iff.2 hu, by simp, by rw [List.take_left, ho],
      fun m hlt hm => ?_⟩
    exact outcomeOf_take_of_longer hlonger (length_lt_crlf hlt hm)
  refine .same rfl hu ⟨rfl, by rw [hhit]; rfl⟩ ⟨?_, by rw [h]; rfl⟩
  rw [h, hhit]
  cases o <;> rfl

/-- The line feed behind blanks is one of them. -/
theorem not_blank_of_none (h : outcomeOf table (u ++ ['\n']) = none) :
    ¬ ∀ c ∈ u, Rule.blanks.mem c = true := by
  intro hblank
  have hfeed : ∀ d ∈ u ++ ['\n'], Rule.blanks.mem d = true := by
    intro d hd
    rcases List.mem_append.1 hd with hd | hd
    · exact hblank d hd
    · rw [List.mem_singleton.1 hd]
      decide
  obtain ⟨c, w, hcw⟩ := List.exists_cons_of_ne_nil
    (List.append_ne_nil_of_right_ne_nil u (List.cons_ne_nil '\n' []))
  rw [hcw] at h hfeed
  exact outcomeOf_ne_none_of_blank hfeed h

/-- A match that ends with the carriage return of a line. -/
theorem firstPieces_of_hit_return {o : Outcome}
    (h : munch table 0 none (crlf (u ++ '\n' :: s)) = .hit o (crlf u ++ ['\r']).length)
    (ho : outcomeOf table (crlf u ++ ['\r']) = some o)
    (hlonger : ∀ m, (crlf u ++ ['\r']).length < m → m ≤ (crlf (u ++ '\n' :: s)).length →
      outcomeOf table ((crlf (u ++ '\n' :: s)).take m) = none) :
    FirstPieces (u ++ '\n' :: s) := by
  -- behind the line feed there is no match
  have hbehind : ∀ m, u.length < m → m ≤ (u ++ '\n' :: s).length →
      outcomeOf table ((u ++ '\n' :: s).take m) = none := by
    intro m hlt hm
    refine outcomeOf_take_of_longer hlonger ?_
    obtain ⟨j, rfl⟩ : ∃ j, m = u.length + (j + 1) := ⟨m - u.length - 1, by omega⟩
    rw [List.take_length_add_append, List.take_succ_cons, crlf_append, crlf_lineFeed]
    simp
  rcases Rule.outcomeOf_return ho with hblank | ⟨hline, hkind, hsame | ⟨rfl, hnone, v, rfl, hv⟩⟩
  · have hnone := hbehind (u.length + 1) (Nat.lt_succ_self _) (by simp)
    rw [List.take_length_add_append, List.take_succ_cons, List.take_zero] at hnone
    exact absurd hblank (not_blank_of_none hnone)
  · have hu : u ≠ [] := by
      rintro rfl
      rw [outcomeOf_nil] at hsame
      cases hsame
    have hhit : munch table 0 none (u ++ '\n' :: s) = .hit o u.length :=
      munch_eq_hit ⟨List.length_pos_iff.2 hu, by simp, by rw [List.take_left, hsame], hbehind⟩
    refine .lineEnd (k := (Found.hit o 0).kind) rfl hu ?_
      ⟨by rw [hhit]; cases o <;> rfl, by rw [hhit]; rfl⟩
      ⟨by rw [h]; cases o <;> rfl, by rw [h]; rfl⟩
    rcases hkind with rfl | rfl | rfl
    · exact .inr (.inl rfl)
    · exact .inr (.inr ⟨rfl, hline⟩)
    · exact .inl rfl
  · have hne : v ≠ [] := by
      rintro rfl
      rw [outcomeOf_nil] at hv
      cases hv
    have htext : (v ++ ['\\']) ++ '\n' :: s = v ++ '\\' :: '\n' :: s := List.append_assoc ..
    have hhit : munch table 0 none ((v ++ ['\\']) ++ '\n' :: s) = .hit .refuse v.length := by
      refine munch_eq_hit ⟨List.length_pos_iff.2 hne, by simp, by rw [htext, List.take_left, hv],
        fun m hlt hm => ?_⟩
      rcases Nat.eq_or_lt_of_le (show (v ++ ['\\']).length ≤
        m by rw [List.length_append]; exact hlt) with rfl | hlt
      · rw [List.take_left, hnone]
      · exact hbehind m hlt hm
    refine .escape htext hne ⟨by rw [hhit]; rfl, by rw [hhit]; rfl⟩ ⟨by rw [h]; rfl, ?_⟩
    rw [h, crlf_append, List.append_assoc]
    rfl

/-- A match with carriage returns, and the match without them. -/
theorem firstPieces_of_hit {o : Outcome} (h : munch table 0 none (crlf t) = .hit o n) :
    FirstPieces t := by
  have hright := munch_spec (crlf t)
  rw [h] at hright
  obtain ⟨hpos, hle, ho, hlonger⟩ : Best table (crlf t) (some (o, n)) := hright
  have hn : ((crlf t).take n).length = n := by rw [List.length_take, Nat.min_eq_left hle]
  rcases crlf_eq_append (List.take_append_drop n (crlf t)).symm with ⟨u, s, rfl, htake, -⟩ |
    ⟨u, s, rfl, htake, -⟩
  · rw [htake] at hn ho
    subst hn
    exact firstPieces_of_hit_inside h hpos ho hlonger
  · rw [htake] at hn ho
    subst hn
    exact firstPieces_of_hit_return h ho hlonger

/-! ### Errors

A character of ASCII is one byte, so an error never stops in the middle of one. -/

/-- For a character of ASCII the leading byte is all of it. -/
theorem not_hasLead {w : List Char} {c : Char} (hc : c.toNat < 0x80)
    (h : ¬ Opens table (w ++ [c])) :
    (left table w).any (·.pattern.hasLead c) = false :=
  Bool.eq_false_iff.2 fun hlead => h (opens_of_hasLead Rule.solid_table hc hlead)

/-- A blank starts a match. -/
theorem opens_blank {c : Char} (hc : Rule.blanks.mem c = true) : Opens table [c] := by
  cases ho : outcomeOf table [c] with
  | none => exact absurd ho (outcomeOf_ne_none_of_blank (by simpa using hc))
  | some o => exact Rule.opens_of_outcomeOf ho

/-- Nothing that starts a match goes on with a line feed here, and so an error ends before it. -/
theorem strays_lineFeed (hopens : Opens table u) (hnot : ¬ Opens table (u ++ ['\n'])) :
    u ≠ [] ∧ Strays table (u ++ '\n' :: s) u.length := by
  have hu : u ≠ [] := by
    rintro rfl
    exact hnot (opens_blank (by decide))
  refine ⟨hu, u, '\n' :: s, rfl, hopens, .inr ⟨'\n', s, rfl, hnot, ?_⟩⟩
  rw [not_hasLead (by decide) hnot, if_neg (by simpa using hu)]

/-- What goes on with a line feed goes on with a carriage return before it. -/
theorem opens_return (h : Opens table (u ++ ['\n'])) :
    Opens table ((crlf u ++ ['\r']) ++ ['\n']) := by
  rw [List.append_assoc]
  rw [← Rule.opens_crlf, crlf_append] at h
  exact h

/-- Without a match, an error is found of the length that it reaches. -/
theorem miss_eq (hbest : Best table t none) (hstrays : Strays table t n) :
    munch table 0 none t = .miss n := by
  have hright := munch_spec t
  cases hfound : munch table 0 none t with
  | hit o m =>
      rw [hfound] at hright
      cases Best.unique (show Best table t (some (o, m)) from hright) hbest
  | miss m =>
      rw [hfound] at hright
      rw [Strays.unique hright.2 hstrays]

/-- All of a text is in error. -/
theorem firstPieces_of_miss_whole (ht : t ≠ []) (hnone : Best table t none)
    (hopens : Opens table (crlf t))
    (h : munch table 0 none (crlf t) = .miss (max (crlf t).length 1)) : FirstPieces t := by
  have hlen : ∀ {cs : List Char}, cs ≠ [] → max cs.length 1 = cs.length :=
    fun hcs => Nat.max_eq_left (List.length_pos_iff.2 hcs)
  have hfound := miss_eq hnone ⟨t, [], (List.append_nil t).symm, Rule.opens_crlf.1 hopens,
    .inl ⟨rfl, rfl⟩⟩
  refine .same (List.append_nil t).symm ht ⟨by rw [hfound], ?_⟩ ⟨by rw [h]; rfl, ?_⟩
  · rw [hfound]
    exact hlen ht
  · rw [h]
    exact hlen fun hnil => ht (crlf_injective hnil)

/-- An error at a character that ends no line, which may be a part of it. -/
theorem firstPieces_of_miss_inside {c : Char} (hc : c ≠ '\n')
    (hnone : Best table (u ++ c :: s) none) (hopens : Opens table (crlf u))
    (hnot : ¬ Opens table (crlf u ++ [c])) (h : munch table 0 none (crlf (u ++ c :: s)) =
      .miss (if crlf u = [] ∨ (left table (crlf u)).any (·.pattern.hasLead c) =
        true then (crlf u).length + 1
        else (crlf u).length)) : FirstPieces (u ++ c :: s) := by
  have hcrlf : crlf (u ++ [c]) = crlf u ++ [c] := by rw [crlf_append, crlf_cons hc, crlf_nil]
  have hnot' : ¬ Opens table (u ++ [c]) := by rwa [← Rule.opens_crlf, hcrlf]
  have hfound := miss_eq hnone ⟨u, c :: s, rfl, Rule.opens_crlf.1 hopens,
    .inr ⟨c, s, rfl, hnot', rfl⟩⟩
  have hlead_crlf : (crlf u = [] ∨ (left table (crlf u)).any (·.pattern.hasLead c) = true) ↔
      (u = [] ∨ (left table u).any (·.pattern.hasLead c) = true) := by
    rw [Rule.left_crlf]
    exact or_congr_left ⟨fun hnil => crlf_injective hnil, fun hnil => by rw [hnil]; rfl⟩
  by_cases hlead : u = [] ∨ (left table u).any (·.pattern.hasLead c) = true
  · rw [if_pos (hlead_crlf.2 hlead)] at h
    rw [if_pos hlead] at hfound
    refine .same (List.append_cons u c s) (by simp) ⟨rfl, by rw [hfound]; simp [Found.length]⟩
      ⟨by rw [h, hfound]; rfl, ?_⟩
    rw [h, hcrlf, List.length_append]
    rfl
  · rw [if_neg (fun hlead' => hlead (hlead_crlf.1 hlead'))] at h
    rw [if_neg hlead] at hfound
    exact .same rfl (fun hu => hlead (.inl hu)) ⟨rfl, by rw [hfound]; rfl⟩
      ⟨by rw [h, hfound]; rfl, by rw [h]; rfl⟩

/-- An error with carriage returns, and the error without them. -/
theorem firstPieces_of_miss (ht : t ≠ []) (h : munch table 0 none (crlf t) = .miss n) :
    FirstPieces t := by
  have hright := munch_spec (crlf t)
  rw [h] at hright
  obtain ⟨hbest, w, rest, htext, hopens, hend⟩ := hright
  have hnone : Best table t none := by
    intro m hpos hm
    have hlonger : ∀ m, 0 < m → m ≤ (crlf t).length →
        outcomeOf table ((crlf t).take m) = none := hbest
    exact outcomeOf_take_of_longer hlonger (length_lt_crlf (u := []) hpos hm)
  rcases hend with ⟨rfl, rfl⟩ | ⟨c, tail, rfl, hnot, rfl⟩
  · rw [List.append_nil] at htext
    subst htext
    exact firstPieces_of_miss_whole ht hnone hopens h
  · rcases crlf_eq_append htext with ⟨u, s, rfl, rfl, htail⟩ | ⟨u, s, rfl, rfl, htail⟩
    · cases s with
      | nil => cases htail
      | cons d s =>
          by_cases hd : d = '\n'
          · -- neither the carriage return nor the line feed goes on a match
            subst hd
            obtain ⟨rfl, rfl⟩ := List.cons.inj htail
            have hnot' : ¬ Opens table (u ++ ['\n']) :=
              fun hfeed => hnot (opens_return hfeed).of_append
            obtain ⟨hu, hstrays⟩ := strays_lineFeed (s := s) (Rule.opens_crlf.1 hopens) hnot'
            have hfound := miss_eq hnone hstrays
            refine .same rfl hu ⟨rfl, by rw [hfound]; rfl⟩ ⟨by rw [h, hfound]; rfl, ?_⟩
            rw [h, not_hasLead (by decide) hnot, if_neg]
            · rfl
            · simpa using fun hnil => hu (crlf_injective hnil)
          · rw [crlf_cons hd] at htail
            obtain ⟨rfl, rfl⟩ := List.cons.inj htail
            exact firstPieces_of_miss_inside hd hnone hopens hnot h
    · obtain ⟨rfl, rfl⟩ := List.cons.inj htail
      have hnot' : ¬ Opens table (u ++ ['\n']) := fun hfeed => hnot (opens_return hfeed)
      obtain ⟨hu, hstrays⟩ := strays_lineFeed (s := s) (Rule.opens_crlf.1 hopens.of_append) hnot'
      have hfound := miss_eq hnone hstrays
      refine .lineEnd rfl hu (.inl rfl) ⟨by rw [hfound]; rfl, by rw [hfound]; rfl⟩
        ⟨by rw [h]; rfl, ?_⟩
      rw [h, not_hasLead (by decide) hnot, if_neg (by simp)]
      rfl

/-- **What a text starts with, with and without carriage returns.** -/
theorem firstPieces (ht : t ≠ []) : FirstPieces t := by
  cases h : munch table 0 none (crlf t) with
  | hit o n => exact firstPieces_of_hit h
  | miss n => exact firstPieces_of_miss ht h

/-- Only blanks, comments and strings go over the end of a line. -/
theorem Starts.kind_of_lineFeed {kind : Kind} (h : Starts (u ++ s) u (some kind))
    (hfeed : '\n' ∈ u) :
    kind = .whitespace ∨ kind = .blockComment ∨ kind = .string := by
  have hkinds : ∀ r ∈ table, r.pattern.mentions '\n' = true → r.outcome ∈
      [.accept .whitespace, .accept .blockComment, .accept .string] :=
      Rule.forall_mem_table (by decide)
  have hright := munch_spec (u ++ s)
  obtain ⟨hkind, hlength⟩ := h
  cases hfound : munch table 0 none (u ++ s) with
  | miss n =>
      rw [hfound] at hkind
      cases hkind
  | hit o n =>
      rw [hfound] at hkind hlength hright
      obtain ⟨-, -, ho, -⟩ : Best table (u ++ s) (some (o, n)) := hright
      obtain rfl : n = u.length := hlength
      rw [List.take_left] at ho
      obtain ⟨r, hr, rfl, hmatches⟩ := Rule.exists_of_outcomeOf ho
      have hmem := hkinds r hr (hmatches.mentions hfeed)
      simp only [List.mem_cons, List.not_mem_nil, or_false] at hmem
      rcases hmem with heq | heq | heq
      · rw [heq] at hkind
        exact .inl (Option.some.inj hkind).symm
      · rw [heq] at hkind
        exact .inr (.inl (Option.some.inj hkind).symm)
      · rw [heq] at hkind
        exact .inr (.inr (Option.some.inj hkind).symm)

/-- A backslash outside of a string is an error. -/
theorem starts_backslash (s : List Char) : Starts ('\\' :: s) ['\\'] none := by
  have hnot : ¬ Opens table ([] ++ ['\\']) := by
    rw [← left_eq_nil_iff Rule.solid_table, Rule.spelled.property]
    decide
  have hbest : Best table ('\\' :: s) none :=
    fun m hpos _ => Rule.outcomeOf_take_of_not_opens hnot hpos
  have hfound := miss_eq hbest ⟨[], '\\' :: s, rfl, opens_nil,
    .inr ⟨'\\', s, rfl, hnot, (if_pos (.inl rfl)).symm⟩⟩
  exact ⟨by rw [hfound]; rfl, by rw [hfound]; rfl⟩

end Raw

end SharpTokens
