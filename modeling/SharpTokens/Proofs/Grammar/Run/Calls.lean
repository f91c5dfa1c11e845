import Mathlib.Logic.Relation
import SharpTokens.Proofs.Grammar.Run.Units

/-!
# Which nonterminals a parser asks for

A parser that is built on the nonterminals of a grammar asks for one of them in some state if what
it gives changes with what the nonterminal gives there (`Asks`). So calls need no trace of a run.
Each call of a nonterminal from another one is further on in the text, or at the same word and of a
lower rank (`Calls.later`). Hence a chain of calls that comes back to a nonterminal has taken a word
(`later_of_transGen`).

That a nonterminal is asked for is a matter of what a parser gives, so it can be refuted by giving
the parser another nonterminal and seeing the same result. The relation `Tracks` is made for this:
with one limit for both and two grammars that agree where it counts, it says that the results are
the same (`Asks.needed`).
-/

namespace SharpTokens.Grammar

open Grammar.Parser Loosened Relation

variable {α : Type} {g g' : Nonterminals} {input : Input} {x y : Symbol} {s t : State}

/-- Two grammars differ at most in what one nonterminal gives from one state on. -/
def Nonterminals.SameBut (g g' : Nonterminals) (input : Input) (y : Symbol) (t : State) : Prop :=
  ∀ z s, g'.parser z input s ≠ g.parser z input s → z = y ∧ s = t

/-- A parser that was started in the state `s` asks for a nonterminal in the state `t`. -/
def Asks (p : Nonterminals → Parser α) (g : Nonterminals) (input : Input) (s : State) (y : Symbol)
    (t : State) :
    Prop :=
  ∃ g', g.SameBut g' input y t ∧ p g' input s ≠ p g input s

/-- A nonterminal that was started in some state asks for another one. -/
def Calls (g : Nonterminals) (input : Input) (a b : Symbol × State) : Prop :=
  Asks (·.body a.1) g input a.2 b.1 b.2

def MayStart (words : Words) (limit : Nat) (a : Symbol × State) : Prop :=
  (a.2.guard.depth ≤ a.2.pos ∧ a.2.guard.depth ≤ limit ∧ a.2.pos ≤ words.size) ∧
    a.1.Ahead words a.2.pos

section

variable {words : Words} {limit n : Nat} (few : words.size < Guard.unlimited)

/-- Such a state is one that parsers are followed from. -/
theorem MayStart.ready (h : MayStart words limit (x, s)) :
    (same words limit few).Ready s.guard.depth s.pos :=
  ⟨h.1.1, h.1.2.1, h.1.2.2⟩

theorem Loosened.Ready.mayStart {d lo : Nat} {more : Array Fault}
    (h : (same words limit few).Ready d lo) (hy : y.Ahead words lo) :
    MayStart words limit (y, ⟨lo, ⟨d⟩, more⟩) :=
  ⟨⟨h.depth_le, h.within, h.le_size⟩, hy⟩

/-- What two grammars give alike under one limit, they give. -/
theorem Loosened.Tracks.eq {p q : Parser α} {Q : α → Nat → Prop}
    (h : Tracks (same words limit few) p q s.guard.depth s.pos Q) :
    q ⟨words, limit⟩ s = p ⟨words, limit⟩ s := by
  obtain ⟨a, hi, more, hp, -, -, hq⟩ := h
  exact (hq (.inl rfl) s.faults).trans (hp s.faults).symm

/-- Where a grammar gives what another one gives, they are alike. -/
theorem Loosened.Tracks.of_eq {p q : Parser α} {d lo : Nat} {Q : α → Nat → Prop}
    (h : Tracks (same words limit few) p p d lo Q)
    (heq : ∀ more, q ⟨words, limit⟩ ⟨lo, ⟨d⟩, more⟩ = p ⟨words, limit⟩ ⟨lo, ⟨d⟩, more⟩) :
    Tracks (same words limit few) p q d lo Q := by
  obtain ⟨a, hi, more, hp, hhi, ha, -⟩ := h
  exact ⟨a, hi, more, hp, hhi, ha, fun _ faults => (heq faults).trans (hp faults)⟩

/-- An unfolded grammar is like itself. -/
theorem unfolded_tracks (hn : 4 * (words.size + 1) ≤ n) {d lo : Nat} (z : Symbol)
    (h : (same words limit few).Ready d lo) (hz : z.Ahead words lo) :
    Tracks (same words limit few) ((Nonterminals.unfolded n).parser z)
      ((Nonterminals.unfolded n).parser z) d lo
      ((same words limit few).Fits d lo z) := by
  have hrank := z.rank_le
  have hweight : z.weight words lo < n := by
    simp only [Symbol.weight]
    omega
  rw [Nonterminals.unfolded_eq]
  exact Nonterminals.unfolding_tracks _ _ z h hz hweight hweight

/-- A parser asks for a nonterminal only where that may start, and only if it needs the nonterminal
to end there. -/
theorem Asks.needed (hn : 4 * (words.size + 1) ≤ n) (Needs : Symbol → Nat → Nat → Prop)
    {p : Nonterminals → Parser α} (hp : ∀ g', (∀ z {d lo : Nat}, (same words limit few).Ready d lo →
      z.Ahead words lo → Needs z d lo →
        Tracks (same words limit few) ((Nonterminals.unfolded n).parser z) (g'.parser z) d lo
          ((same words limit few).Fits d lo z)) →
      p g' ⟨words, limit⟩ s = p (.unfolded n) ⟨words, limit⟩ s)
    (h : Asks p (.unfolded n) ⟨words, limit⟩ s y t) :
    MayStart words limit (y, t) ∧ Needs y t.guard.depth t.pos := by
  obtain ⟨g', hsame, hdiffer⟩ := h
  apply Classical.byContradiction
  intro hnot
  apply hdiffer
  refine hp g' fun z {d lo} hr hz hneeds => (unfolded_tracks few hn z hr hz).of_eq few
    fun more => ?_
  -- another answer of the nonterminal could only be the one that was asked for
  apply Classical.byContradiction
  intro hother
  obtain ⟨rfl, rfl⟩ := hsame z _ hother
  exact hnot ⟨hr.mayStart few hz, hneeds⟩

include few in
/-- A call goes on, and into one more construct, to a lower level or without a guard. -/
theorem Calls.needed (hn : 4 * (words.size + 1) ≤ n) (hs : MayStart words limit (x, s))
    (h : Calls (.unfolded n) ⟨words, limit⟩ (x, s) (y, t)) :
    MayStart words limit (y, t) ∧ (s.pos < t.pos ∨ s.pos = t.pos ∧ y.rank < x.rank) ∧
      (s.guard.depth < t.guard.depth ∨ t.guard.depth = s.guard.depth ∧
        (x.Below words s.pos y t.pos ∨ Unguarded words s.pos t.pos x y)) := by
  refine Asks.needed few hn (fun z d lo => (s.pos < lo ∨ s.pos = lo ∧ z.rank < x.rank) ∧
    (s.guard.depth < d ∨
    d = s.guard.depth ∧ (x.Below words s.pos z lo ∨ Unguarded words s.pos lo x z)))
    (fun g' hg => ?_) h
  refine Tracks.eq few (Nonterminals.body_tracks x (hs.ready few) hs.2
    fun d mid z hr hz hlater hdeep => ?_)
  exact hg z hr hz ⟨hlater, hdeep⟩

include few in
/-- **A call goes on**: to a later word, or at the same word to a nonterminal of a lower rank. -/
theorem Calls.later (hn : 4 * (words.size + 1) ≤ n) (hs : MayStart words limit (x, s))
    (h : Calls (.unfolded n) ⟨words, limit⟩ (x, s) (y, t)) :
    MayStart words limit (y, t) ∧ (s.pos < t.pos ∨ s.pos = t.pos ∧ y.rank < x.rank) :=
  (h.needed few hn hs).imp_right And.left

include few in
/-- The top of a text asks for nonterminals in such states only. -/
theorem mayStart_of_asks (hn : 4 * (words.size + 1) ≤ n)
    (h : Asks (·.compilationUnit) (.unfolded n) ⟨words, limit⟩ .initial y t) :
    MayStart words limit (y, t) := by
  have hstart : (same words limit few).Ready State.initial.guard.depth State.initial.pos :=
    ⟨Nat.le_refl 0, Nat.zero_le _, Nat.zero_le _⟩
  refine (Asks.needed few hn (fun _ _ _ => True) (fun g' hg => ?_) h).1
  exact Tracks.eq few (Nonterminals.compilationUnit_tracks hstart fun _ hr z hz =>
    hg z hr hz trivial)

include few in
/-- What may start, and whatever is called from it, may start. -/
theorem mayStart_of_reflTransGen (hn : 4 * (words.size + 1) ≤ n) {a b : Symbol × State}
    (ha : MayStart words limit a) (h : ReflTransGen (Calls (.unfolded n) ⟨words, limit⟩) a b) :
    MayStart words limit b := by
  induction h with
  | refl => exact ha
  | tail _ hcall ih => exact (hcall.later few hn ih).1

include few in
/-- A chain of calls goes on as each of them does. -/
theorem later_of_transGen (hn : 4 * (words.size + 1) ≤ n) {a b : Symbol × State}
    (ha : MayStart words limit a) (h : TransGen (Calls (.unfolded n) ⟨words, limit⟩) a b) :
    a.2.pos < b.2.pos ∨ a.2.pos = b.2.pos ∧ b.1.rank < a.1.rank := by
  induction h with
  | single hcall => exact (hcall.later few hn ha).2
  | @tail b d hchain hcall ih =>
      have hb := mayStart_of_reflTransGen few hn ha hchain.to_reflTransGen
      have hlater := (hcall.later few hn hb).2
      omega

end

end SharpTokens.Grammar
