import Mathlib.Order.Bounds.Image
import SharpTokens.Proofs.Grammar.Run.Outcome
import SharpTokens.Proofs.Grammar.Types

/-!
# Where groups end

A group ends at the first word behind which as many brackets are closed as are opened, whichever
closes which. `bracketDepth` counts this from the kinds of words alone, and may go below zero.
Looking past a group and skipping it count in loops of their own, which never go below zero and stop
under different conditions. Inside a group this makes no difference, since there the depth stays
positive up to the end (`Words.closing?_succ`). So looking finds the end that the depth tells
(`Words.closing?_cases`), skipping goes where looking leads (`Words.pastClosing_eq`), and attributes
are left where they were looked past (`attributeLists_eq`).
-/

namespace SharpTokens.Grammar

open Grammar.Parser

variable {d d' : Nat} {k : Kind} {ks : List Kind}

/-! ## Depth

The depth is counted as an integer from the first word on. The end of a group is the least number of
words behind which it is not positive. -/

/-- How many more brackets some words open than they close. -/
def bracketDepth (ks : List Kind) : Int := ks.countP Kind.isOpener - ks.countP Kind.isCloser

theorem isCloser_eq_false_of_isOpener (h : k.isOpener = true) : k.isCloser = false := by
  cases k <;> first | rfl | cases h

/-- The depth of words is the sum of what each adds. -/
theorem bracketDepth_cons (k : Kind) (ks : List Kind) :
    bracketDepth (k :: ks) = bracketDepth [k] + bracketDepth ks := by
  simp only [bracketDepth, List.countP_cons, List.countP_nil]
  omega

/-- The numbers of words behind which no bracket is open, if `d` are open before the first word. -/
def closings (d : Nat) (ks : List Kind) : Set Nat :=
  {n | 0 < n ∧ n ≤ ks.length ∧ d + bracketDepth (ks.take n) = 0}

theorem closings_nil : closings d [] = ∅ := by
  apply Set.eq_empty_of_forall_notMem
  rintro n ⟨hpos, hle, -⟩
  exact absurd hpos (Nat.not_lt.2 hle)

/-- The first word closes the last bracket. -/
theorem isLeast_closings_one (h : d + bracketDepth [k] = 0) : IsLeast (closings d (k :: ks)) 1 :=
  ⟨⟨Nat.one_pos, by simp, h⟩, fun _ hn => hn.1⟩

/-- The first word leaves brackets open. -/
theorem closings_cons (h : d + bracketDepth [k] = d') (hd' : d' ≠ 0) :
    closings d (k :: ks) = Nat.succ '' closings d' ks := by
  have hdepth (n : Nat) : d + bracketDepth ((k :: ks).take (n + 1)) = d' + bracketDepth
      (ks.take n) := by
    rw [List.take_succ_cons, bracketDepth_cons]
    omega
  ext n
  constructor
  · rintro ⟨hpos, hle, hzero⟩
    obtain ⟨n, rfl⟩ := Nat.exists_eq_succ_of_ne_zero (Nat.pos_iff_ne_zero.1 hpos)
    rw [hdepth] at hzero
    refine ⟨n, ⟨Nat.pos_of_ne_zero ?_, Nat.le_of_succ_le_succ hle, hzero⟩, rfl⟩
    rintro rfl
    apply hd'
    simpa [bracketDepth] using hzero
  · rintro ⟨n, ⟨hpos, hle, hzero⟩, rfl⟩
    exact ⟨Nat.succ_pos n, Nat.succ_le_succ hle, (hdepth n).trans hzero⟩

namespace Words

variable {ws : Words} {n i : Nat}

/-- In a group, or where one is opened, a count that never goes below zero is exact. -/
theorem depthPast_eq (h : 0 < d ∨ k.isOpener = true) : d + bracketDepth [k] = depthPast d k := by
  simp only [bracketDepth, depthPast, List.countP_singleton]
  by_cases hopen : k.isOpener = true
  · simp [hopen, isCloser_eq_false_of_isOpener hopen]
  · have hd : 0 < d := h.resolve_right hopen
    by_cases hclose : k.isCloser = true
    · simp only [hopen, hclose, if_true]
      grind
    · simp [hopen, hclose]

/-! ## Looking past a group

The loop counts the same depth as a natural number, and gives up at the end of the text. -/

/-- In a group, or where one is opened, looking stops at the same words as skipping. -/
theorem closing?_succ (n : Nat) (hk : ws.kind? i = some k) (h : 0 < d ∨ k.isOpener = true) :
    ws.closing? (n + 1) d i
      = if depthPast d k = 0 then some (i + 1) else ws.closing? n (depthPast d k) (i + 1) := by
  simp only [closing?, hk, depthPast]
  by_cases hopen : k.isOpener = true
  · simp [hopen]
  · have hd : 0 < d := h.resolve_right hopen
    by_cases hclose : k.isCloser = true
    · simp [hopen, hclose, Nat.sub_eq_zero_iff_le]
    · simp [hopen, hclose, Nat.pos_iff_ne_zero.1 hd]

/-- Brackets are open before the word at `i`, or it opens one. -/
def InGroup (ws : Words) (d i : Nat) : Prop := 0 < d ∨ (ws.kind? i).any Kind.isOpener = true

theorem InGroup.of_kind? (h : ws.InGroup d i) (hk : ws.kind? i = some k) :
    0 < d ∨ k.isOpener = true := by
  rwa [InGroup, hk, Option.any_some] at h

/-- **Looking finds the end of a group, if it has one.** -/
theorem closing?_cases (hn : ws.size - i ≤ n) (h : ws.InGroup d i) :
    (ws.closing? n d i = none ∧ closings d (ws.kindsFrom i) = ∅) ∨
      ∃ m, ws.closing? n d i = some (i + m) ∧ IsLeast (closings d (ws.kindsFrom i)) m := by
  -- a word that does not end the group leaves brackets open, so the words behind it are in a group
  -- again
  induction n generalizing d i with
  | zero =>
      left
      rw [kindsFrom_eq_nil (by omega)]
      exact ⟨rfl, closings_nil⟩
  | succ n ih =>
      by_cases hlt : i < ws.size
      · obtain ⟨k, hk⟩ := exists_kind? hlt
        have hk' := h.of_kind? hk
        have hdepth := depthPast_eq hk'
        rw [closing?_succ n hk hk', kindsFrom_eq_cons.2 ⟨hk, rfl⟩]
        by_cases hzero : depthPast d k = 0
        · right
          rw [if_pos hzero]
          rw [hzero] at hdepth
          exact ⟨1, rfl, isLeast_closings_one hdepth⟩
        · rw [if_neg hzero, closings_cons hdepth hzero]
          have hrest := ih (d := depthPast d k) (i := i + 1) (by omega)
            (.inl (Nat.pos_of_ne_zero hzero))
          rcases hrest with ⟨hnone, hempty⟩ | ⟨m, hsome, hleast⟩
          · left
            rw [hempty, Set.image_empty]
            exact ⟨hnone, rfl⟩
          · right
            refine ⟨m + 1, ?_, Monotone.map_isLeast (fun _ _ => Nat.succ_le_succ) hleast⟩
            rw [hsome, Nat.add_right_comm, Nat.add_assoc]
      · left
        have hsize := Nat.not_lt.1 hlt
        rw [kindsFrom_eq_nil hsize]
        exact ⟨by simp [closing?, kind?_eq_none hsize], closings_nil⟩

/-- A group ends where as many brackets are closed as are opened, for the first time. -/
theorem groupEnd?_eq_some_iff (hopen : (ws.kind? i).any Kind.isOpener = true) (m : Nat) :
    ws.groupEnd? i = some (i + m) ↔ IsLeast (closings 0 (ws.kindsFrom i)) m := by
  rw [groupEnd?]
  rcases closing?_cases (d := 0) (Nat.le_refl (ws.size - i)) (.inr hopen) with ⟨hnone, hempty⟩ |
    ⟨m', hsome, hleast⟩
  · rw [hnone, hempty]
    exact ⟨nofun, fun hm => hm.1.elim⟩
  · rw [hsome, Option.some_inj, Nat.add_left_cancel_iff]
    constructor
    · rintro rfl
      exact hleast
    · exact hleast.unique

/-- There is no end exactly if brackets stay open up to the end of the text. -/
theorem groupEnd?_eq_none_iff (hopen : (ws.kind? i).any Kind.isOpener = true) :
    ws.groupEnd? i = none ↔ closings 0 (ws.kindsFrom i) = ∅ := by
  rw [groupEnd?]
  rcases closing?_cases (d := 0) (Nat.le_refl (ws.size - i)) (.inr hopen) with ⟨hnone, hempty⟩ |
    ⟨m, hsome, hleast⟩
  · exact iff_of_true hnone hempty
  · rw [hsome]
    exact iff_of_false nofun hleast.nonempty.ne_empty

/-! ## Skipping a group

The other loop stops at the end of the text and takes that for the end. -/

/-- **Skipping goes where looking leads, and to the end where that leads nowhere.** -/
theorem pastClosing_eq (hi : i ≤ ws.size) (hn : ws.size - i ≤ n) (h : ws.InGroup d i) :
    ws.pastClosing n d i = (ws.closing? n d i).getD ws.size := by
  induction n generalizing d i with
  | zero =>
      show i = ws.size
      omega
  | succ n ih =>
      rcases Nat.lt_or_eq_of_le hi with hlt | rfl
      · obtain ⟨k, hk⟩ := exists_kind? hlt
        rw [ws.pastClosing_succ n d hk, closing?_succ n hk (h.of_kind? hk)]
        by_cases hzero : depthPast d k = 0
        · rw [if_pos hzero, if_pos hzero, Option.getD_some]
        · rw [if_neg hzero, if_neg hzero]
          exact ih hlt (by omega) (.inl (Nat.pos_of_ne_zero hzero))
      · simp [pastClosing, closing?, kind?_eq_none (Nat.le_refl ws.size)]

/-- Where looking finds an end, skipping ends there; otherwise it goes to the end of the text. -/
theorem pastGroup_eq (hopen : (ws.kind? i).any Kind.isOpener = true) :
    ws.pastGroup i = (ws.groupEnd? i).getD ws.size := by
  obtain ⟨k, hk, -⟩ := (Option.any_eq_true _ _).1 hopen
  exact pastClosing_eq (Nat.le_of_lt (lt_size_of_kind? hk)) (Nat.le_refl _) (.inr hopen)

end Words

variable {input : Input} {lo n : Nat}

/-- As the parser does it. -/
theorem skipGroup_eq {s : State} (hopen : (input.words.kind? s.pos).any Kind.isOpener = true) :
    skipGroup input s =
      ((), { s with pos := (input.words.groupEnd? s.pos).getD input.words.size }) := by
  rw [← Words.pastGroup_eq hopen]
  rfl

/-! ## Attributes

Lists of attributes are groups one after another. The look stops at the first that is not closed,
and the parser at the end of the text. -/

/-- A bracket ahead opens a list, which is skipped as a group. -/
theorem attributeStep_gives (h : input.words.is lo .lbracket = true) (found : Array Node) :
    Gives (attributeStep found) input d lo
      (.more (found.push (.node ⟨.attributeList, lo, input.words.pastGroup lo, none, .none⟩ [])))
      (input.words.pastGroup lo) #[] := by
  apply (Gives.look _).andThen
  rw [h]
  exact Gives.here.andThen (Gives.skipGroup.andThen ((Gives.node _ _ _ _ _).andThen Gives.pure))

theorem attributeStep_done_gives (h : input.words.is lo .lbracket = false) (found : Array Node) :
    Gives (attributeStep found) input d lo (.done found) lo #[] := by
  apply (Gives.look _).andThen
  rw [h]
  exact Gives.pure

/-- Attributes are read to where they are looked past, and to the end if one of the lists is not
closed. -/
theorem repeatUpTo_attributeStep_gives (hn : input.words.size - lo < n) (found : Array Node) :
    ∃ r, Gives (repeatUpTo attributeStep n found) input d lo r
      ((input.words.pastAttributes? n lo).getD input.words.size) #[] := by
  induction n generalizing lo found with
  | zero => omega
  | succ n ih =>
      rw [Repeats.repeatUpTo_succ]
      cases hopen : input.words.is lo .lbracket with
      | true =>
          have hlt := Words.lt_size_of_is hopen
          have hany : (input.words.kind? lo).any Kind.isOpener = true := by
            rw [Words.is_eq_true.1 hopen]
            rfl
          have hstep := attributeStep_gives (d := d) hopen found
          rw [Words.pastGroup_eq hany] at hstep
          rw [Words.pastAttributes?, if_pos hopen]
          cases hgroup : input.words.groupEnd? lo with
          | some mid =>
              rw [hgroup, Option.getD_some] at hstep
              have hmid : lo < mid := Words.lt_of_closing? hgroup
              have hleft : input.words.size - mid < n := by omega
              obtain ⟨r, hrest⟩ := ih hleft _
              exact ⟨r, hstep.andThen hrest⟩
          | none =>
              -- the group is not closed, so behind it nothing is left to read
              rw [hgroup, Option.getD_none] at hstep
              have hleft : input.words.size - input.words.size < n := by omega
              obtain ⟨r, hrest⟩ := ih hleft _
              have hend : input.words.is input.words.size .lbracket = false := by
                simp [Words.is, Words.kind?_eq_none]
              rw [Words.pastAttributes?_eq_self hend] at hrest
              exact ⟨r, hstep.andThen hrest⟩
      | false =>
          rw [Words.pastAttributes?_eq_self hopen]
          exact ⟨found, (attributeStep_done_gives hopen found).andThen Gives.pure⟩

/-- **Attributes are left where they are looked past.** -/
theorem attributeLists_eq (input : Input) (s : State) :
    (attributeLists input s).2 =
      { s with
        pos := (input.words.pastAttributes? (input.words.size - s.pos) s.pos).getD
          input.words.size } := by
  obtain ⟨lo, ⟨d⟩, faults⟩ := s
  obtain ⟨r, hloop⟩ := repeatUpTo_attributeStep_gives (d := d)
    (Nat.lt_succ_self (input.words.size - lo)) #[]
  have hlists : Gives attributeLists input d lo r.toList _ #[] := Gives.andThen hloop Gives.pure
  rw [Words.pastAttributes?_stable (Nat.le_succ _) (Nat.le_refl _)] at hlists
  rw [hlists faults, Array.append_empty]

/-- Whether a declaration starts ahead is told by the words behind the attributes as they are
read. -/
theorem startsMember_eq (input : Input) (s : State) :
    input.words.startsMember s.pos =
      input.words.leadsToMember (input.words.size - (attributeLists input s).2.pos)
      (attributeLists input s).2.pos := by
  rw [attributeLists_eq, Words.startsMember]
  cases input.words.pastAttributes? (input.words.size - s.pos) s.pos with
  | some j => rfl
  | none => simp [Words.leadsToMember]

/-! ## Agreement

The parser comes to where the look said, if it said anything. -/

/-- **Groups are skipped as they are looked past.** From an opening bracket on, looking finds the
first place where no bracket is open any more, and nothing if there is none. Skipping goes to the
place that is found, or else to the end of the words. So where attributes are looked past, reading
them leads to the same word, and it is from there on that a declaration is looked for. -/
theorem skips_what_is_looked_past (input : Input) (s : State) :
    ((input.words.kind? s.pos).any Kind.isOpener = true →
      (∀ n, input.words.groupEnd? s.pos = some (s.pos + n) ↔
        IsLeast (closings 0 (input.words.kindsFrom s.pos)) n) ∧
      (input.words.groupEnd? s.pos = none ↔ closings 0 (input.words.kindsFrom s.pos) = ∅) ∧
      (∀ n, input.words.groupEnd? s.pos = some (s.pos + n) →
        skipGroup input s = ((), { s with pos := s.pos + n })) ∧
      (input.words.groupEnd? s.pos = none →
        skipGroup input s = ((), { s with pos := input.words.size }))) ∧
    (∀ j, input.words.pastAttributes? (input.words.size - s.pos) s.pos = some j →
      (attributeLists input s).2 = { s with pos := j }) ∧
    input.words.startsMember s.pos =
      input.words.leadsToMember (input.words.size - (attributeLists input s).2.pos)
      (attributeLists input s).2.pos := by
  refine ⟨fun hopen => ⟨Words.groupEnd?_eq_some_iff hopen, Words.groupEnd?_eq_none_iff hopen,
    ?_, ?_⟩, ?_,
    startsMember_eq input s⟩
  · intro n hsome
    rw [skipGroup_eq hopen, hsome, Option.getD_some]
  · intro hnone
    rw [skipGroup_eq hopen, hnone, Option.getD_none]
  · intro j hj
    rw [attributeLists_eq, hj, Option.getD_some]

/-- In `[A(0}] [B] class` the brackets close each other, whichever they are: the first group has six
words, and the class is behind both. In `([)` they do not, and all is skipped. -/
theorem skips_what_is_looked_past_mixed :
    let closed : Input :=
  ⟨#[⟨.lbracket, "[", true⟩, ⟨.ident, "A", true⟩, ⟨.lparen, "(", true⟩, ⟨.number, "0", true⟩,
      ⟨.rbrace, "\x7d", true⟩, ⟨.rbracket, "]", false⟩, ⟨.lbracket, "[", true⟩, ⟨.ident, "B", true⟩,
      ⟨.rbracket, "]", false⟩, ⟨.classKw, "class", false⟩], 1⟩
    let unclosed : Input :=
      ⟨#[⟨.lparen, "(", true⟩, ⟨.lbracket, "[", true⟩, ⟨.rparen, ")", false⟩], 1⟩
    (closed.words.groupEnd? 0 = some 6 ∧ IsLeast (closings 0 (closed.words.kindsFrom 0)) 6 ∧
      skipGroup closed .initial = ((), { State.initial with pos := 6 })) ∧
    (closed.words.pastAttributes? 10 0 = some 9 ∧ (attributeLists closed .initial).2 =
      { State.initial with pos := 9 } ∧
      closed.words.startsMember 0 = true) ∧
    unclosed.words.groupEnd? 0 = none ∧ closings 0 (unclosed.words.kindsFrom 0) = ∅ ∧
      skipGroup unclosed .initial = ((), { State.initial with pos := 3 }) := by
  intro closed unclosed
  obtain ⟨hclosed, hattributes, -⟩ := skips_what_is_looked_past closed .initial
  obtain ⟨hends, -, hskips, -⟩ := hclosed (by decide)
  obtain ⟨hunclosed, -⟩ := skips_what_is_looked_past unclosed .initial
  obtain ⟨-, hempty, -, hall⟩ := hunclosed (by decide)
  have hend : closed.words.groupEnd? 0 = some (0 + 6) := by decide
  have hpast : closed.words.pastAttributes? 10 0 = some 9 := by decide
  have hnone : unclosed.words.groupEnd? 0 = none := by decide
  refine ⟨⟨hend, (hends 6).1 hend, hskips 6 hend⟩, ⟨hpast, hattributes 9 hpast, ?_⟩, hnone,
    hempty.1 hnone, hall hnone⟩
  decide

end SharpTokens.Grammar
